import Mathlib.Data.Int.Basic
import Mathlib.Logic.Function.Basic
import Mathlib.Tactic

/-!
# The tree of a DRAM channel

`DRAM<T>` of the Ramulator sources: a channel is a tree of ranks, banks and what else the standard
`T` has above its rows.  A command walks down the tree along its address; every node may ask for
another command first, holds the command back until its timing is met, changes state, and passes
the timing of the command on to itself and to its siblings.

What the walk asks of the standard is a `DramSpec`.  The statistics of a node, its busy and refresh
cycles, are left out.
-/

set_option autoImplicit false

namespace MacSim.Model.Ramulator

/-! ## Nodes -/

/-- One timing parameter: after the command it is listed under, `cmd` waits `val` cycles from the
`dist`-th last time that command was issued.
SRCLINE: ramulator/src/DDR3.h:126-132 -/
structure TimingEntry (Cmd : Type) where
  cmd : Cmd
  dist : ℕ
  val : ℤ
  sibling : Bool

/-- What a node of the tree holds.  Rows are no nodes: their bank keeps `rowState` for them.
SRCLINE: ramulator/src/DRAM.h:20-122 -/
structure DramCells (Cmd State : Type) where
  id : ℤ
  state : State
  rowState : ℤ → Option State
  curServing : ℤ
  beginOfServing : ℤ
  next : Cmd → ℤ
  prev : Cmd → List ℤ

/-- A node with its children, at its level. -/
inductive Dram (Cmd State : Type) : ℕ → Type
  | node {level : ℕ} (cells : DramCells Cmd State) (count : ℕ)
      (child : Fin count → Dram Cmd State (level + 1)) : Dram Cmd State level

variable {Cmd State : Type}

namespace Dram

def cells {level : ℕ} : Dram Cmd State level → DramCells Cmd State
  | .node cells _ _ => cells

def count {level : ℕ} : Dram Cmd State level → ℕ
  | .node _ count _ => count

/-- The same tree with other cells. -/
def map {Cmd' State' : Type} (f : DramCells Cmd State → DramCells Cmd' State') :
    {level : ℕ} → Dram Cmd State level → Dram Cmd' State' level
  | _, .node cells count child => .node (f cells) count fun i => (child i).map f

/-- What timing depends on: not the states of nodes and not their counters. -/
def timingCells (cells : DramCells Cmd State) : DramCells Cmd Unit :=
  { cells with state := (), rowState := fun _ => none, curServing := 0, beginOfServing := -1 }

end Dram

/-! ## Standards -/

/-- The part of a standard that timing depends on.  A command reaches down to its `scope`, and no
timing parameter looks back less than one command. -/
structure TimingTable (Cmd : Type) where
  scope : Cmd → ℕ
  timing : ℕ → Cmd → List (TimingEntry Cmd)
  dist_pos : ∀ level c, ∀ t ∈ timing level c, 0 < t.dist

/-- A standard.  A prerequisite may be missing, and computing it may fail an assertion; a command
changes the states of nodes and never their timing. -/
structure DramSpec (Cmd State : Type) extends TimingTable Cmd where
  rowLevel : ℕ
  start : ℕ → State
  orgCount : ℕ → ℕ
  prereq : (level : ℕ) → Cmd → Dram Cmd State level → ℤ → Option (Option Cmd)
  rowhit : (level : ℕ) → Cmd → Option (Dram Cmd State level → ℤ → Option Bool)
  rowopen : (level : ℕ) → Cmd → Option (Dram Cmd State level → ℤ → Option Bool)
  lambda : (level : ℕ) → Cmd → Dram Cmd State level → ℤ → Dram Cmd State level
  lambda_timing : ∀ level c d i, (lambda level c d i).map Dram.timingCells = d.map Dram.timingCells

/-- How far back the timing parameters under `c` look.
SRCLINE: ramulator/src/DRAM.h:203-210 -/
def TimingTable.history (table : TimingTable Cmd) (level : ℕ) (c : Cmd) : ℕ :=
  (table.timing level c).foldl (fun dist t => max dist t.dist) 0

namespace Dram

/-! ## Construction -/

/-- A node as it is constructed.
SRCLINE: ramulator/src/DRAM.h:189-210 -/
def newCells (spec : DramSpec Cmd State) (level : ℕ) (id : ℤ) : DramCells Cmd State where
  id := id
  state := spec.start level
  rowState := fun _ => none
  curServing := 0
  beginOfServing := -1
  next := fun _ => -1
  prev := fun c => List.replicate (spec.history level c) (-1)

/-- A node with all it has below it, where `below` more levels lie above the rows.
SRCLINE: ramulator/src/DRAM.h:189-228 -/
def construct (spec : DramSpec Cmd State) : (below : ℕ) → {level : ℕ} → ℤ → Dram Cmd State level
  | 0, level, id => .node (newCells spec level id) 0 Fin.elim0
  | below + 1, level, id =>
    .node (newCells spec level id) (spec.orgCount (level + 1)) fun i => construct spec below i

/-! ## What a command needs -/

/-- The command that `cmd` needs next: a prerequisite of the first node on its way that has one.
It fails where an assertion does, or where the address leaves the tree.
SRCLINE: ramulator/src/DRAM.h:247-262 -/
def decode (spec : DramSpec Cmd State) (cmd : Cmd) (addr : ℕ → ℤ) :
    {level : ℕ} → Dram Cmd State level → Option Cmd
  | level, .node cells count child =>
    match spec.prereq level cmd (.node cells count child) (addr (level + 1)) with
    | none => none
    | some (some prereqCmd) => some prereqCmd
    | some none =>
      if addr (level + 1) < 0 ∨ count = 0 then some cmd
      else if h : (addr (level + 1)).toNat < count then
        (child ⟨(addr (level + 1)).toNat, h⟩).decode spec cmd addr
      else none

/-- Is the command ready?
SRCLINE: ramulator/src/DRAM.h:266-278 -/
def check (table : TimingTable Cmd) (cmd : Cmd) (addr : ℕ → ℤ) (clk : ℤ) :
    {level : ℕ} → Dram Cmd State level → Option Bool
  | level, .node cells count child =>
    if cells.next cmd ≠ -1 ∧ clk < cells.next cmd then some false
    else if addr (level + 1) < 0 ∨ level = table.scope cmd ∨ count = 0 then some true
    else if h : (addr (level + 1)).toNat < count then
      (child ⟨(addr (level + 1)).toNat, h⟩).check table cmd addr clk
    else none

/-- The walk of `check_row_hit` and `check_row_open`: the first node with an entry answers.
SRCLINE: ramulator/src/DRAM.h:282-310 -/
def checkRow (table : (level : ℕ) → Cmd → Option (Dram Cmd State level → ℤ → Option Bool))
    (cmd : Cmd) (addr : ℕ → ℤ) : {level : ℕ} → Dram Cmd State level → Option Bool
  | level, .node cells count child =>
    match table level cmd with
    | some answer => answer (.node cells count child) (addr (level + 1))
    | none =>
      if addr (level + 1) < 0 ∨ count = 0 then some false
      else if h : (addr (level + 1)).toNat < count then
        (child ⟨(addr (level + 1)).toNat, h⟩).checkRow table cmd addr
      else none

/-- SRCLINE: ramulator/src/DRAM.h:282-295 -/
def checkRowHit (spec : DramSpec Cmd State) (cmd : Cmd) (addr : ℕ → ℤ) {level : ℕ}
    (d : Dram Cmd State level) : Option Bool :=
  d.checkRow spec.rowhit cmd addr

/-- SRCLINE: ramulator/src/DRAM.h:297-310 -/
def checkRowOpen (spec : DramSpec Cmd State) (cmd : Cmd) (addr : ℕ → ℤ) {level : ℕ}
    (d : Dram Cmd State level) : Option Bool :=
  d.checkRow spec.rowopen cmd addr

/-- The latest of `nextClk` and the times that the nodes on the way to the scope allow `cmd` at.
SRCLINE: ramulator/src/DRAM.h:312-322 -/
def getNextFrom (table : TimingTable Cmd) (cmd : Cmd) (addr : ℕ → ℤ) :
    (nextClk : ℤ) → {level : ℕ} → Dram Cmd State level → Option ℤ
  | nextClk, level, .node cells count child =>
    let nextClk := max nextClk (cells.next cmd)
    if level < table.scope cmd ∧ count ≠ 0 ∧ 0 ≤ addr (level + 1) then
      if h : (addr (level + 1)).toNat < count then
        (child ⟨(addr (level + 1)).toNat, h⟩).getNextFrom table cmd addr nextClk
      else none
    else some nextClk

/-! ## Updates -/

/-- The states after a command that has `togo` levels to go to its scope.
SRCLINE: ramulator/src/DRAM.h:335-347 -/
def updateStateDown (spec : DramSpec Cmd State) (cmd : Cmd) (addr : ℕ → ℤ) :
    (togo : ℕ) → {level : ℕ} → Dram Cmd State level → Option (Dram Cmd State level)
  | 0, level, d => some (spec.lambda level cmd d (addr (level + 1)))
  | togo + 1, level, d =>
    match spec.lambda level cmd d (addr (level + 1)) with
    | .node cells count child =>
      if count = 0 then some (.node cells count child)
      else if h : 0 ≤ addr (level + 1) ∧ (addr (level + 1)).toNat < count then
        ((child ⟨(addr (level + 1)).toNat, h.2⟩).updateStateDown spec cmd addr togo).map
          fun changed => .node cells count
            (Function.update child ⟨(addr (level + 1)).toNat, h.2⟩ changed)
      else none

/-- SRCLINE: ramulator/src/DRAM.h:335-347 -/
def updateState (spec : DramSpec Cmd State) (cmd : Cmd) (addr : ℕ → ℤ) {level : ℕ}
    (d : Dram Cmd State level) : Option (Dram Cmd State level) :=
  d.updateStateDown spec cmd addr (spec.scope cmd - level)

variable [DecidableEq Cmd]

/-- Every entry with a time lifts the `next` of its command to it. -/
def raiseNext (future : TimingEntry Cmd → Option ℤ) :
    List (TimingEntry Cmd) → (Cmd → ℤ) → Cmd → ℤ
  | [], next => next
  | t :: entries, next =>
    match future t with
    | none => raiseNext future entries next
    | some time =>
      raiseNext future entries (Function.update next t.cmd (max (next t.cmd) time))

/-- The command went to a sibling.
SRCLINE: ramulator/src/DRAM.h:354-366 -/
def siblingCells (entries : List (TimingEntry Cmd)) (clk : ℤ) (cells : DramCells Cmd State) :
    DramCells Cmd State :=
  { cells with
    next := raiseNext (fun t => if t.sibling then some (clk + t.val) else none) entries
      cells.next }

/-- The command went to this node.  The history is as long as its entries look back.
SRCLINE: ramulator/src/DRAM.h:368-396 -/
def targetCells (entries : List (TimingEntry Cmd)) (cmd : Cmd) (clk : ℤ)
    (cells : DramCells Cmd State) : DramCells Cmd State :=
  let history :=
    if (cells.prev cmd).length ≠ 0 then clk :: (cells.prev cmd).dropLast else cells.prev cmd
  { cells with
    prev := Function.update cells.prev cmd history
    next := raiseNext
      (fun t =>
        if t.sibling then none
        else if history.getD (t.dist - 1) (-1) < 0 then none
        else some (history.getD (t.dist - 1) (-1) + t.val))
      entries cells.next }

/-- SRCLINE: ramulator/src/DRAM.h:351-406 -/
def updateTiming (table : TimingTable Cmd) (cmd : Cmd) (addr : ℕ → ℤ) (clk : ℤ) :
    {level : ℕ} → Dram Cmd State level → Dram Cmd State level
  | level, .node cells count child =>
    if cells.id ≠ addr level then
      .node (siblingCells (table.timing level cmd) clk cells) count child
    else
      .node (targetCells (table.timing level cmd) cmd clk cells) count
        fun i => (child i).updateTiming table cmd addr clk

omit [DecidableEq Cmd] in
/-- One request more or less under way at a node.  It fails where an assertion does: the counter
stays above zero, and it goes back to zero only after it left it.
SRCLINE: ramulator/src/DRAM.h:408-436 -/
def servingCells (delta clk : ℤ) (cells : DramCells Cmd State) : Option (DramCells Cmd State) :=
  let cur := cells.curServing + delta
  if cur < 0 then none
  else if delta = 1 ∧ cur = 1 then some { cells with curServing := cur, beginOfServing := clk }
  else if cur = 0 ∧ (cells.beginOfServing = -1 ∨ delta ≠ -1) then none
  else some { cells with curServing := cur }

omit [DecidableEq Cmd] in
/-- One request more or less under way below a node; levels under the banks are not counted.
SRCLINE: ramulator/src/DRAM.h:408-447 -/
def updateServingRequests (bankLevel : ℕ) (addr : ℕ → ℤ) (delta clk : ℤ) :
    {level : ℕ} → Dram Cmd State level → Option (Dram Cmd State level)
  | level, .node cells count child =>
    if cells.id ≠ addr level then none
    else
      match servingCells delta clk cells with
      | none => none
      | some cells =>
        if addr (level + 1) < 0 ∨ count = 0 ∨ bankLevel < level then
          some (.node cells count child)
        else if h : (addr (level + 1)).toNat < count then
          ((child ⟨(addr (level + 1)).toNat, h⟩).updateServingRequests bankLevel addr delta
            clk).map fun changed => .node cells count
              (Function.update child ⟨(addr (level + 1)).toNat, h⟩ changed)
        else none

end Dram

/-! ## Channels -/

/-- A command that was issued, as a line of the command trace has it.
SRCLINE: ramulator/src/Controller.h:625-647 -/
structure Issued (Cmd : Type) where
  cmd : Cmd
  addr : ℕ → ℤ
  clk : ℤ

/-- A channel: the root of the tree and the clock of its last command. -/
structure Channel (Cmd State : Type) where
  root : Dram Cmd State 0
  curClk : ℤ

namespace Channel

/-- SRCLINE: ramulator/src/DRAM.h:189-228 -/
def new (spec : DramSpec Cmd State) (id : ℤ) : Channel Cmd State where
  root := .construct spec (spec.rowLevel - 1) id
  curClk := 0

/-- The earliest clock from now on at which the command is ready.
SRCLINE: ramulator/src/DRAM.h:312-322 -/
def getNext (spec : DramSpec Cmd State) (cmd : Cmd) (addr : ℕ → ℤ) (s : Channel Cmd State) :
    Option ℤ :=
  s.root.getNextFrom spec.toTimingTable cmd addr s.curClk

/-- The command is issued.
SRCLINE: ramulator/src/DRAM.h:325-331 -/
def update [DecidableEq Cmd] (spec : DramSpec Cmd State) (cmd : Cmd) (addr : ℕ → ℤ) (clk : ℤ)
    (s : Channel Cmd State) : Option (Channel Cmd State) :=
  (s.root.updateState spec cmd addr).map fun root =>
    { root := root.updateTiming spec.toTimingTable cmd addr clk, curClk := clk }

end Channel

end MacSim.Model.Ramulator
