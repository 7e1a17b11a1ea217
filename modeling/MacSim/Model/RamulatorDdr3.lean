import MacSim.Model.RamulatorDram

/-!
# DDR3

The tables that make `DRAM<T>` a DDR3 channel: what a command needs first, which states it
changes, and how long other commands wait for it.  A channel has ranks, a rank has banks, and a
bank keeps its rows.
-/

set_option autoImplicit false

namespace MacSim.Model.Ramulator.Ddr3

/-- SRCLINE: ramulator/src/DDR3.h:36-42 -/
inductive Command
  | act | pre | prea | rd | wr | rda | wra | ref | pde | pdx | sre | srx
  deriving DecidableEq, Repr

/-- SRCLINE: ramulator/src/DDR3.h:104-107 -/
inductive State
  | opened | closed | powerUp | actPowerDown | prePowerDown | selfRefresh | max
  deriving DecidableEq, Repr

def rankLevel : ℕ := 1
def bankLevel : ℕ := 2
def rowLevel : ℕ := 3
def columnLevel : ℕ := 4

/-- SRCLINE: ramulator/src/DDR3.h:50-54 -/
def scope : Command → ℕ
  | .act => rowLevel
  | .pre => bankLevel
  | .prea => rankLevel
  | .rd | .wr | .rda | .wra => columnLevel
  | .ref | .pde | .pdx | .sre | .srx => rankLevel

/-- SRCLINE: ramulator/src/DDR3.h:56-64 -/
def isOpening : Command → Bool
  | .act => true
  | _ => false

/-- SRCLINE: ramulator/src/DDR3.h:66-77 -/
def isAccessing : Command → Bool
  | .rd | .wr | .rda | .wra => true
  | _ => false

/-- SRCLINE: ramulator/src/DDR3.h:79-90 -/
def isClosing : Command → Bool
  | .rda | .wra | .pre | .prea => true
  | _ => false

/-- SRCLINE: ramulator/src/DDR3.h:107-109 -/
def start (level : ℕ) : State :=
  if level = rankLevel then .powerUp
  else if level = bankLevel ∨ level = rowLevel then .closed
  else .max

/-! ## Prerequisites -/

/-- SRCLINE: ramulator/src/DDR3.cpp:97-146 -/
def rankPrereq {level : ℕ} (cmd : Command) (node : Dram Command State level) :
    Option (Option Command) :=
  match cmd with
  | .rd | .wr =>
    match node.cells.state with
    | .powerUp => some none
    | .actPowerDown | .prePowerDown => some (some .pdx)
    | .selfRefresh => some (some .srx)
    | _ => none
  | .ref =>
    match node with
    | .node _ count child =>
      if ∃ i : Fin count, (child i).cells.state ≠ .closed then some (some .prea)
      else some (some .ref)
  | .pde =>
    match node.cells.state with
    | .powerUp | .actPowerDown | .prePowerDown => some (some .pde)
    | .selfRefresh => some (some .srx)
    | _ => none
  | .sre =>
    match node.cells.state with
    | .powerUp | .selfRefresh => some (some .sre)
    | .actPowerDown | .prePowerDown => some (some .pdx)
    | _ => none
  | _ => some none

/-- SRCLINE: ramulator/src/DDR3.cpp:105-117 -/
def bankPrereq {level : ℕ} (cmd : Command) (node : Dram Command State level) (id : ℤ) :
    Option (Option Command) :=
  match cmd with
  | .rd | .wr =>
    match node.cells.state with
    | .closed => some (some .act)
    | .opened => if (node.cells.rowState id).isSome then some (some cmd) else some (some .pre)
    | _ => none
  | _ => some none

/-- SRCLINE: ramulator/src/DDR3.cpp:94-147 -/
def prereq (level : ℕ) (cmd : Command) (node : Dram Command State level) (id : ℤ) :
    Option (Option Command) :=
  if level = rankLevel then rankPrereq cmd node
  else if level = bankLevel then bankPrereq cmd node id
  else some none

/-- SRCLINE: ramulator/src/DDR3.cpp:151-166 -/
def bankRowhit {level : ℕ} (node : Dram Command State level) (id : ℤ) : Option Bool :=
  match node.cells.state with
  | .closed => some false
  | .opened => some (node.cells.rowState id).isSome
  | _ => none

/-- SRCLINE: ramulator/src/DDR3.cpp:168-180 -/
def bankRowopen {level : ℕ} (node : Dram Command State level) (_id : ℤ) : Option Bool :=
  match node.cells.state with
  | .closed => some false
  | .opened => some true
  | _ => none

/-- SRCLINE: ramulator/src/DDR3.cpp:151-166 -/
def rowhit (level : ℕ) (cmd : Command) :
    Option (Dram Command State level → ℤ → Option Bool) :=
  if level = bankLevel ∧ (cmd = .rd ∨ cmd = .wr) then some bankRowhit else none

/-- SRCLINE: ramulator/src/DDR3.cpp:168-180 -/
def rowopen (level : ℕ) (cmd : Command) :
    Option (Dram Command State level → ℤ → Option Bool) :=
  if level = bankLevel ∧ (cmd = .rd ∨ cmd = .wr) then some bankRowopen else none

/-! ## State changes -/

/-- The bank without an open row. -/
def closedCells (cells : DramCells Command State) : DramCells Command State :=
  { cells with state := .closed, rowState := fun _ => none }

/-- SRCLINE: ramulator/src/DDR3.cpp:184-202 -/
def bankLambda {level : ℕ} (cmd : Command) (node : Dram Command State level) (id : ℤ) :
    Dram Command State level :=
  match node with
  | .node cells count child =>
    match cmd with
    | .act =>
      .node { cells with
        state := .opened, rowState := Function.update cells.rowState id (some .opened) }
        count child
    | .pre | .rda | .wra => .node (closedCells cells) count child
    | _ => .node cells count child

/-- SRCLINE: ramulator/src/DDR3.cpp:190-216 -/
def rankLambda {level : ℕ} (cmd : Command) (node : Dram Command State level) :
    Dram Command State level :=
  match node with
  | .node cells count child =>
    match cmd with
    | .prea =>
      .node cells count fun i =>
        match child i with
        | .node bank rows row => .node (closedCells bank) rows row
    | .pde =>
      if ∃ i : Fin count, (child i).cells.state ≠ .closed then
        .node { cells with state := .actPowerDown } count child
      else .node { cells with state := .prePowerDown } count child
    | .pdx => .node { cells with state := .powerUp } count child
    | .sre => .node { cells with state := .selfRefresh } count child
    | .srx => .node { cells with state := .powerUp } count child
    | _ => .node cells count child

/-- SRCLINE: ramulator/src/DDR3.cpp:182-217 -/
def lambda (level : ℕ) (cmd : Command) (node : Dram Command State level) (id : ℤ) :
    Dram Command State level :=
  if level = rankLevel then rankLambda cmd node
  else if level = bankLevel then bankLambda cmd node id
  else node

/-- A part of the cells that no state belongs to is the same after every command. -/
theorem lambda_map {Cmd' State' : Type} (f : DramCells Command State → DramCells Cmd' State')
    (hf : ∀ (cells : DramCells Command State) (state : State) (rowState : ℤ → Option State),
      f { cells with state := state, rowState := rowState } = f cells)
    (level : ℕ) (cmd : Command) (node : Dram Command State level) (id : ℤ) :
    (lambda level cmd node id).map f = node.map f := by
  obtain ⟨cells, count, child⟩ := node
  have hchild (i : Fin count) :
      (match child i with
        | .node bank rows row => Dram.node (closedCells bank) rows row).map f =
        (child i).map f := by
    cases child i with
    | node bank rows row => simp only [Dram.map, closedCells, hf]
  have hstate (state : State) : f { cells with state := state } = f cells :=
    hf cells state cells.rowState
  unfold lambda
  split
  · cases cmd
    case prea => simp only [rankLambda, Dram.map, hchild]
    case pde =>
      simp only [rankLambda]
      split <;> simp only [Dram.map, hstate]
    case pdx | sre | srx => simp only [rankLambda, Dram.map, hstate]
    all_goals rfl
  · split
    · cases cmd
      case act => simp only [bankLambda, Dram.map, hf]
      case pre | rda | wra => simp only [bankLambda, Dram.map, closedCells, hf]
      all_goals rfl
    · rfl

/-! ## Timing -/

/-- The lengths in cycles of a speed grade.
SRCLINE: ramulator/src/DDR3.h:179-190 -/
structure SpeedEntry where
  nBL : ℤ
  nCCD : ℤ
  nRTRS : ℤ
  nCL : ℤ
  nRCD : ℤ
  nRP : ℤ
  nCWL : ℤ
  nRAS : ℤ
  nRC : ℤ
  nRTP : ℤ
  nWTR : ℤ
  nWR : ℤ
  nRRD : ℤ
  nFAW : ℤ
  nRFC : ℤ
  nREFI : ℤ
  nPD : ℤ
  nXP : ℤ
  nCKESR : ℤ
  nXS : ℤ

/-- A parameter on the next command of a kind at the same node. -/
def wait (cmd : Command) (val : ℤ) : TimingEntry Command :=
  { cmd := cmd, dist := 1, val := val, sibling := false }

/-- A parameter on the next command of a kind at a sibling. -/
def waitBeside (cmd : Command) (val : ℤ) : TimingEntry Command :=
  { cmd := cmd, dist := 1, val := val, sibling := true }

/-- SRCLINE: ramulator/src/DDR3.cpp:225-236 -/
def channelTiming (s : SpeedEntry) : Command → List (TimingEntry Command)
  | .rd | .rda => [wait .rd s.nBL, wait .rda s.nBL]
  | .wr | .wra => [wait .wr s.nBL, wait .wra s.nBL]
  | _ => []

/-- Reads behind a read and writes behind it, in the rank and in the other ranks. -/
def rankReadTiming (s : SpeedEntry) : List (TimingEntry Command) :=
  [wait .rd s.nCCD, wait .rda s.nCCD,
    wait .wr (s.nCL + s.nCCD + 2 - s.nCWL), wait .wra (s.nCL + s.nCCD + 2 - s.nCWL),
    waitBeside .rd (s.nBL + s.nRTRS), waitBeside .rda (s.nBL + s.nRTRS),
    waitBeside .wr (s.nBL + s.nRTRS), waitBeside .wra (s.nBL + s.nRTRS),
    waitBeside .wr (s.nCL + s.nBL + s.nRTRS - s.nCWL),
    waitBeside .wra (s.nCL + s.nBL + s.nRTRS - s.nCWL)]

/-- Writes behind a write and reads behind it, in the rank and in the other ranks. -/
def rankWriteTiming (s : SpeedEntry) : List (TimingEntry Command) :=
  [wait .wr s.nCCD, wait .wra s.nCCD,
    wait .rd (s.nCWL + s.nBL + s.nWTR), wait .rda (s.nCWL + s.nBL + s.nWTR),
    waitBeside .rd (s.nCWL + s.nBL + s.nRTRS - s.nCL),
    waitBeside .rda (s.nCWL + s.nBL + s.nRTRS - s.nCL)]

/-- SRCLINE: ramulator/src/DDR3.cpp:239-338 -/
def rankTiming (s : SpeedEntry) : Command → List (TimingEntry Command)
  | .rd => rankReadTiming s ++ [wait .prea s.nRTP, wait .pde (s.nCL + s.nBL + 1)]
  | .rda => rankReadTiming s ++ [wait .pde (s.nCL + s.nBL + 1), wait .ref (s.nRTP + s.nRP)]
  | .wr => rankWriteTiming s ++
    [wait .prea (s.nCWL + s.nBL + s.nWR), wait .pde (s.nCWL + s.nBL + s.nWR)]
  | .wra => rankWriteTiming s ++
    [wait .pde (s.nCWL + s.nBL + s.nWR + 1), wait .ref (s.nCWL + s.nBL + s.nWR + s.nRP)]
  | .act =>
    [wait .act s.nRRD, { cmd := .act, dist := 4, val := s.nFAW, sibling := false },
      wait .prea s.nRAS, wait .ref s.nRC, wait .pde 1]
  | .pre => [wait .ref s.nRP, wait .sre s.nRP]
  | .prea => [wait .act s.nRP, wait .ref s.nRP, wait .sre s.nRP]
  | .ref => [wait .act s.nRFC, wait .ref s.nRFC, wait .pde 1]
  | .pde => [wait .pdx s.nPD]
  | .pdx =>
    [wait .rd s.nXP, wait .rda s.nXP, wait .wr s.nXP, wait .wra s.nXP, wait .act s.nXP,
      wait .pre s.nXP, wait .prea s.nXP, wait .ref s.nXP, wait .pde s.nXP, wait .sre s.nXP]
  | .sre => [wait .srx s.nCKESR]
  | .srx => [wait .act s.nXS, wait .ref s.nXS, wait .pde s.nXS, wait .sre s.nXS]

/-- SRCLINE: ramulator/src/DDR3.cpp:341-359 -/
def bankTiming (s : SpeedEntry) : Command → List (TimingEntry Command)
  | .act =>
    [wait .rd s.nRCD, wait .rda s.nRCD, wait .wr s.nRCD, wait .wra s.nRCD, wait .act s.nRC,
      wait .pre s.nRAS]
  | .rd => [wait .pre s.nRTP]
  | .wr => [wait .pre (s.nCWL + s.nBL + s.nWR)]
  | .rda => [wait .act (s.nRTP + s.nRP)]
  | .wra => [wait .act (s.nCWL + s.nBL + s.nWR + s.nRP)]
  | .pre => [wait .act s.nRP]
  | _ => []

/-- SRCLINE: ramulator/src/DDR3.cpp:220-360 -/
def timing (s : SpeedEntry) : ℕ → Command → List (TimingEntry Command)
  | 0 => channelTiming s
  | 1 => rankTiming s
  | 2 => bankTiming s
  | _ => fun _ => []

/-- All parameters look back one command at least. -/
theorem timing_dist (s : SpeedEntry) (level : ℕ) (c : Command) :
    ∀ t ∈ timing s level c, 0 < t.dist := by
  match level with
  | 0 => cases c <;> simp [timing, channelTiming, wait]
  | 1 => cases c <;> simp [timing, rankTiming, rankReadTiming, rankWriteTiming, wait, waitBeside]
  | 2 => cases c <;> simp [timing, bankTiming, wait]
  | _ + 3 => simp [timing]

/-! ## The standard -/

/-- DDR3 with a number of ranks of as many banks.
SRCLINE: ramulator/src/DDR3.cpp:31-42 -/
def spec (s : SpeedEntry) (ranks banks : ℕ) : DramSpec Command State where
  scope := scope
  timing := timing s
  dist_pos level c t ht := timing_dist s level c t ht
  rowLevel := rowLevel
  start := start
  orgCount level := if level = rankLevel then ranks else if level = bankLevel then banks else 0
  prereq := prereq
  rowhit := rowhit
  rowopen := rowopen
  lambda := lambda
  lambda_timing := lambda_map _ fun _ _ _ => rfl

/-- `DDR3_1600K` with chips of 2 Gb, 16 bits wide.
SRCLINE: ramulator/src/DDR3.h:200 -/
def speed1600K : SpeedEntry where
  nBL := 4
  nCCD := 4
  nRTRS := 2
  nCL := 11
  nRCD := 11
  nRP := 11
  nCWL := 8
  nRAS := 28
  nRC := 39
  nRTP := 6
  nWTR := 6
  nWR := 12
  nRRD := 6
  nFAW := 32
  nRFC := 128
  nREFI := 6240
  nPD := 4
  nXP := 5
  nCKESR := 5
  nXS := 136

end MacSim.Model.Ramulator.Ddr3
