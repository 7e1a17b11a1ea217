import MacSim.Model.RamulatorDdr3

/-!
# The banks of a DDR3 channel

What a DDR3 channel is for its controller: every rank has a power mode and every bank at most one
open row.  The tree of the channel is shown to be a representation of that, the prerequisites of a
command to be the ones of the abstract channel, and the state changes too.
-/

set_option autoImplicit false

namespace MacSim.Analysis.Ramulator

open MacSim.Model.Ramulator MacSim.Model.Ramulator.Ddr3

/-! ## One step of a walk -/

section Walks

variable {Cmd State : Type} {spec : DramSpec Cmd State} {cmd : Cmd} {addr : ℕ → ℤ} {level i : ℕ}
  {cells : DramCells Cmd State} {count : ℕ} {child : Fin count → Dram Cmd State (level + 1)}

/-- A command that needs another one first decodes to that. -/
theorem decode_of_prereq {c : Cmd}
    (h : spec.prereq level cmd (.node cells count child) (addr (level + 1)) = some (some c)) :
    Dram.decode spec cmd addr (.node cells count child) = some c := by
  rw [Dram.decode, h]

/-- A command that needs nothing here is decoded at the child of its address. -/
theorem decode_descend
    (h : spec.prereq level cmd (.node cells count child) (addr (level + 1)) = some none)
    (haddr : addr (level + 1) = i) (hi : i < count) :
    Dram.decode spec cmd addr (.node cells count child) =
      (child ⟨i, hi⟩).decode spec cmd addr := by
  have hindex : (addr (level + 1)).toNat = i := by omega
  rw [Dram.decode, h]
  dsimp only
  rw [if_neg (by omega), dif_pos (by omega)]
  simp only [hindex]

/-- The row is checked at the level that has an answer. -/
theorem checkRow_of_answer
    {table : (level : ℕ) → Cmd → Option (Dram Cmd State level → ℤ → Option Bool)}
    (answer : Dram Cmd State level → ℤ → Option Bool) (h : table level cmd = some answer) :
    Dram.checkRow table cmd addr (.node cells count child) =
      answer (.node cells count child) (addr (level + 1)) := by
  rw [Dram.checkRow, h]

/-- Where a level has no answer the row is checked at the child of the address. -/
theorem checkRow_descend
    {table : (level : ℕ) → Cmd → Option (Dram Cmd State level → ℤ → Option Bool)}
    (h : table level cmd = none) (haddr : addr (level + 1) = i) (hi : i < count) :
    Dram.checkRow table cmd addr (.node cells count child) =
      (child ⟨i, hi⟩).checkRow table cmd addr := by
  have hindex : (addr (level + 1)).toNat = i := by omega
  rw [Dram.checkRow, h]
  dsimp only
  rw [if_neg (by omega), dif_pos (by omega)]
  simp only [hindex]

/-- The update goes on at the child of the address. -/
theorem updateStateDown_descend {togo : ℕ} {d : Dram Cmd State level}
    (h : spec.lambda level cmd d (addr (level + 1)) = .node cells count child)
    (haddr : addr (level + 1) = i) (hi : i < count) :
    d.updateStateDown spec cmd addr (togo + 1) =
      ((child ⟨i, hi⟩).updateStateDown spec cmd addr togo).map fun changed =>
        .node cells count (Function.update child ⟨i, hi⟩ changed) := by
  have hindex : (addr (level + 1)).toNat = i := by omega
  rw [Dram.updateStateDown, h]
  dsimp only
  rw [if_neg (by omega), dif_pos (by omega)]
  simp only [hindex]

/-- At a leaf the update ends with the change of the leaf. -/
theorem updateStateDown_leaf {togo : ℕ} {d : Dram Cmd State level}
    (h : spec.lambda level cmd d (addr (level + 1)) = .node cells count child)
    (hleaf : count = 0) :
    d.updateStateDown spec cmd addr togo = some (.node cells count child) := by
  cases togo with
  | zero => rw [Dram.updateStateDown, h]
  | succ togo =>
    rw [Dram.updateStateDown, h]
    dsimp only
    rw [if_pos hleaf]

end Walks

/-! ## The abstract channel -/

/-- The power mode of a rank. -/
inductive Power
  | up | actDown | preDown | selfRefresh
  deriving DecidableEq

def Power.state : Power → State
  | .up => .powerUp
  | .actDown => .actPowerDown
  | .preDown => .prePowerDown
  | .selfRefresh => .selfRefresh

/-- The command that a rank in this mode needs before it takes reads and writes. -/
def Power.wake : Power → Option Command
  | .up => none
  | .actDown | .preDown => some .pdx
  | .selfRefresh => some .srx

/-- What a bank with this open row, or none, needs for a read or write of a row. -/
def bankNeeds (opened : Option ℤ) (cmd : Command) (row : ℤ) : Command :=
  match opened with
  | none => .act
  | some opened => if opened = row then cmd else .pre

/-- The ranks and banks of a channel: a bank has one open row or none. -/
structure Banks where
  power : ℕ → Power
  row : ℕ → ℕ → Option ℤ

namespace Banks

def allClosed : Banks where
  power _ := .up
  row _ _ := none

/-- Some bank of the rank has an open row. -/
def AnyOpen (v : Banks) (banks r : ℕ) : Prop :=
  ∃ b < banks, v.row r b ≠ none

instance (v : Banks) (banks r : ℕ) : Decidable (v.AnyOpen banks r) :=
  inferInstanceAs (Decidable (∃ b < banks, v.row r b ≠ none))

/-- What a read or write of a row needs next. -/
def accessNeeds (v : Banks) (cmd : Command) (r b : ℕ) (row : ℤ) : Command :=
  (v.power r).wake.getD (bankNeeds (v.row r b) cmd row)

/-- What a refresh, or a change of the power mode, of a rank needs next. -/
def rankNeeds (v : Banks) (banks : ℕ) (cmd : Command) (r : ℕ) : Command :=
  match cmd with
  | .ref => if v.AnyOpen banks r then .prea else .ref
  | .pde => if v.power r = .selfRefresh then .srx else .pde
  | .sre => if v.power r = .actDown ∨ v.power r = .preDown then .pdx else .sre
  | _ => cmd

def setRank (v : Banks) (r : ℕ) (power : Power) (row : ℕ → Option ℤ) : Banks where
  power := Function.update v.power r power
  row := Function.update v.row r row

def setRow (v : Banks) (r b : ℕ) (opened : Option ℤ) : Banks :=
  v.setRank r (v.power r) (Function.update (v.row r) b opened)

def setPower (v : Banks) (r : ℕ) (power : Power) : Banks :=
  v.setRank r power (v.row r)

/-- What a command does to a rank and a bank of it. -/
def after (v : Banks) (banks : ℕ) (cmd : Command) (r b : ℕ) (row : ℤ) : Banks :=
  match cmd with
  | .act => v.setRow r b (some row)
  | .pre | .rda | .wra => v.setRow r b none
  | .prea => v.setRank r (v.power r) fun _ => none
  | .pde => v.setPower r (if v.AnyOpen banks r then .actDown else .preDown)
  | .pdx | .srx => v.setPower r .up
  | .sre => v.setPower r .selfRefresh
  | .rd | .wr | .ref => v

/-- A rank that is set to what it is stays as it is. -/
@[simp] theorem setRank_self (v : Banks) (r : ℕ) : v.setRank r (v.power r) (v.row r) = v := by
  simp [setRank]

/-- A row that is set to what it is stays as it is. -/
@[simp] theorem setRow_self (v : Banks) (r b : ℕ) : v.setRow r b (v.row r b) = v := by
  simp [setRow]

end Banks

/-! ## The tree as a representation -/

/-- The cells of a bank with this open row. -/
structure BankShows (cells : DramCells Command State) (opened : Option ℤ) : Prop where
  state_eq : cells.state = if opened.isSome then .opened else .closed
  rowState_eq : cells.rowState = fun row => if opened = some row then some .opened else none

/-- A rank of the tree with this power mode and these open rows. -/
def RankShows (banks : ℕ) (power : Power) (row : ℕ → Option ℤ) : Dram Command State 1 → Prop
  | .node cells count child =>
    cells.state = power.state ∧ count = banks ∧
      ∀ b : Fin count, (child b).count = 0 ∧ BankShows (child b).cells (row b)

/-- A tree of ranks and banks that represents an abstract channel. -/
def Shows (ranks banks : ℕ) (v : Banks) : Dram Command State 0 → Prop
  | .node _ count child =>
    count = ranks ∧ ∀ r : Fin count, RankShows banks (v.power r) (v.row r) (child r)

/-- Closed cells show no open row. -/
theorem bankShows_closedCells (cells : DramCells Command State) :
    BankShows (closedCells cells) none where
  state_eq := rfl
  rowState_eq := by
    funext row
    rfl

section Representation

variable {s : SpeedEntry} {ranks banks : ℕ} {v : Banks}

/-- The tree as it is built shows all banks closed. -/
theorem shows_construct (id : ℤ) :
    Shows ranks banks .allClosed (Channel.new (spec s ranks banks) id).root := by
  refine ⟨rfl, fun r => ⟨rfl, rfl, fun b => ⟨rfl, rfl, ?_⟩⟩⟩
  funext row
  rfl

/-! ## Prerequisites -/

/-- The bank that an address names is one of the channel. -/
structure InBank (ranks banks : ℕ) (addr : ℕ → ℤ) (r b : ℕ) : Prop where
  rank_eq : addr 1 = r
  bank_eq : addr 2 = b
  rank_lt : r < ranks
  bank_lt : b < banks

/-- The rank that an address names is one of the channel. -/
structure InRank (ranks : ℕ) (addr : ℕ → ℤ) (r : ℕ) : Prop where
  rank_eq : addr 1 = r
  rank_lt : r < ranks

/-- An address in a bank is one in its rank. -/
theorem InBank.inRank {addr : ℕ → ℤ} {r b : ℕ} (h : InBank ranks banks addr r b) :
    InRank ranks addr r :=
  ⟨h.rank_eq, h.rank_lt⟩

/-- What a rank asks of an access is that it wakes up. -/
theorem rankPrereq_access {level : ℕ} {node : Dram Command State level} {cmd : Command}
    {power : Power} (hcmd : cmd = .rd ∨ cmd = .wr) (hpower : node.cells.state = power.state) :
    rankPrereq cmd node = some power.wake := by
  rcases hcmd with rfl | rfl
  all_goals
    simp only [rankPrereq, hpower]
    cases power <;> rfl

/-- What a bank asks of an access depends on its open row. -/
theorem bankPrereq_access {level : ℕ} {node : Dram Command State level} {cmd : Command}
    {opened : Option ℤ} {row : ℤ} (hcmd : cmd = .rd ∨ cmd = .wr)
    (hbank : BankShows node.cells opened) :
    bankPrereq cmd node row = some (some (bankNeeds opened cmd row)) := by
  have hstate := hbank.state_eq
  have hopen : (node.cells.rowState row).isSome = true ↔ opened = some row := by
    rw [hbank.rowState_eq]
    dsimp only
    split <;> simp_all
  cases opened with
  | none => rcases hcmd with rfl | rfl <;> simp [bankPrereq, hstate, bankNeeds]
  | some opened =>
    rw [Option.some_inj] at hopen
    rcases hcmd with rfl | rfl
    all_goals
      simp only [bankPrereq, hstate, Option.isSome_some, if_true, bankNeeds]
      by_cases hrow : opened = row
      · rw [if_pos (hopen.mpr hrow), if_pos hrow]
      · rw [if_neg (mt hopen.mp hrow), if_neg hrow]

/-- A read or write decodes to what its bank needs. -/
theorem Shows.decode_access {d : Dram Command State 0} {cmd : Command} {addr : ℕ → ℤ} {r b : ℕ}
    (h : Shows ranks banks v d) (hcmd : cmd = .rd ∨ cmd = .wr)
    (haddr : InBank ranks banks addr r b) :
    d.decode (spec s ranks banks) cmd addr = some (v.accessNeeds cmd r b (addr 3)) := by
  obtain ⟨root, count, rank⟩ := d
  obtain ⟨rfl, hranks⟩ := h
  rw [decode_descend (i := r) rfl haddr.rank_eq haddr.rank_lt]
  have hrank := hranks ⟨r, haddr.rank_lt⟩
  generalize rank ⟨r, haddr.rank_lt⟩ = d at hrank
  obtain ⟨cells, banks, bank⟩ := d
  obtain ⟨hpower, rfl, hbanks⟩ := hrank
  have hnode : (Dram.node cells banks bank : Dram Command State 1).cells.state =
    (v.power r).state := hpower
  have hprereq := rankPrereq_access hcmd hnode
  unfold Banks.accessNeeds
  cases hwake : (v.power r).wake with
  | none =>
    rw [hwake] at hprereq
    rw [decode_descend (i := b) hprereq haddr.bank_eq haddr.bank_lt]
    have hbank := hbanks ⟨b, haddr.bank_lt⟩
    generalize bank ⟨b, haddr.bank_lt⟩ = d at hbank
    obtain ⟨cells, rows, row⟩ := d
    exact decode_of_prereq (bankPrereq_access hcmd hbank.2)
  | some c =>
    rw [hwake] at hprereq
    exact decode_of_prereq hprereq

/-- Some bank of a rank is open in the tree exactly when one is open in the state. -/
theorem exists_ne_closed_iff {count : ℕ} {child : Fin count → Dram Command State 2} {r : ℕ}
    (hbanks : ∀ b : Fin count, (child b).count = 0 ∧ BankShows (child b).cells (v.row r b)) :
    (∃ i : Fin count, (child i).cells.state ≠ .closed) ↔ v.AnyOpen count r := by
  have hbank (i : Fin count) : (child i).cells.state ≠ .closed ↔ v.row r i ≠ none := by
    rw [(hbanks i).2.state_eq]
    cases v.row r i <;> simp
  simp only [hbank]
  constructor
  · rintro ⟨i, hi⟩
    exact ⟨i, i.2, hi⟩
  · rintro ⟨b, hb, hopen⟩
    exact ⟨⟨b, hb⟩, hopen⟩

/-- A command for a rank decodes to what the rank needs. -/
theorem Shows.decode_rank {d : Dram Command State 0} {cmd : Command} {addr : ℕ → ℤ} {r : ℕ}
    (h : Shows ranks banks v d) (hcmd : cmd = .ref ∨ cmd = .pde ∨ cmd = .sre)
    (haddr : InRank ranks addr r) :
    d.decode (spec s ranks banks) cmd addr = some (v.rankNeeds banks cmd r) := by
  obtain ⟨root, count, rank⟩ := d
  obtain ⟨rfl, hranks⟩ := h
  rw [decode_descend (i := r) (by rcases hcmd with rfl | rfl | rfl <;> rfl) haddr.rank_eq
    haddr.rank_lt]
  have hrank := hranks ⟨r, haddr.rank_lt⟩
  generalize rank ⟨r, haddr.rank_lt⟩ = d at hrank
  obtain ⟨cells, banks, bank⟩ := d
  obtain ⟨hpower, rfl, hbanks⟩ := hrank
  apply decode_of_prereq
  show rankPrereq cmd (.node cells banks bank) = _
  rcases hcmd with rfl | rfl | rfl
  · simp only [rankPrereq, exists_ne_closed_iff hbanks, Banks.rankNeeds]
    split <;> rfl
  · simp only [rankPrereq, Banks.rankNeeds, Dram.cells, hpower]
    cases v.power r <;> rfl
  · simp only [rankPrereq, Banks.rankNeeds, Dram.cells, hpower]
    cases v.power r <;> rfl

/-! ## State changes -/

/-- An activation opens its row. -/
theorem bankShows_act {cells : DramCells Command State} {row : ℤ} (h : BankShows cells none) :
    BankShows { cells with
      state := .opened, rowState := Function.update cells.rowState row (some .opened) }
      (some row) where
  state_eq := rfl
  rowState_eq := by
    funext other
    dsimp only
    by_cases hother : other = row
    · subst hother
      rw [Function.update_self, if_pos rfl]
    · have hne : some row ≠ some other := fun h => hother (Option.some_inj.mp h).symm
      rw [Function.update_of_ne hother, h.rowState_eq, if_neg hne]
      rfl

/-- The command reaches a bank. -/
def ForBank (cmd : Command) : Prop :=
  bankLevel ≤ scope cmd

instance : DecidablePred ForBank := fun cmd => inferInstanceAs (Decidable (bankLevel ≤ scope cmd))

/-- What such a command makes of the open row of its bank. -/
def bankAfter (opened : Option ℤ) (cmd : Command) (row : ℤ) : Option ℤ :=
  match cmd with
  | .act => some row
  | .pre | .rda | .wra => none
  | _ => opened

/-- A command for a bank changes the row of that bank only. -/
theorem after_eq_setRow {cmd : Command} (hcmd : ForBank cmd) (r b : ℕ) (row : ℤ) :
    v.after banks cmd r b row = v.setRow r b (bankAfter (v.row r b) cmd row) := by
  cases cmd
  case rd | wr => simp [Banks.after, bankAfter]
  case act | pre | rda | wra => rfl
  all_goals exact absurd hcmd (by decide)

/-- What a command does to its bank in the tree; only a closed bank is activated. -/
theorem bankLambda_shows {cells : DramCells Command State} {count : ℕ}
    {child : Fin count → Dram Command State 3} {cmd : Command} {opened : Option ℤ} {row : ℤ}
    (h : BankShows cells opened) (hcmd : ForBank cmd) (hact : cmd = .act → opened = none) :
    ∃ changed, bankLambda cmd (.node cells count child : Dram Command State 2) row =
        .node changed count child ∧
      BankShows changed (bankAfter opened cmd row) := by
  cases cmd
  case act =>
    refine ⟨_, rfl, ?_⟩
    rw [hact rfl] at h
    exact bankShows_act h
  case pre | rda | wra => exact ⟨_, rfl, bankShows_closedCells cells⟩
  case rd | wr => exact ⟨_, rfl, h⟩
  all_goals exact absurd hcmd (by decide)

/-- A command for a bank leaves the rank alone. -/
theorem rankLambda_of_forBank {cmd : Command} (hcmd : ForBank cmd) {level : ℕ}
    (node : Dram Command State level) : rankLambda cmd node = node := by
  obtain ⟨cells, count, child⟩ := node
  cases cmd
  case act | pre | rda | wra | rd | wr => rfl
  all_goals exact absurd hcmd (by decide)

/-- A tree with one rank changed shows the state with that rank set. -/
theorem Shows.setRank {root : DramCells Command State} {rank : Fin ranks → Dram Command State 1}
    (h : Shows ranks banks v (.node root ranks rank)) {r : ℕ} (hr : r < ranks) {power : Power}
    {row : ℕ → Option ℤ} {changed : Dram Command State 1}
    (hchanged : RankShows banks power row changed) :
    Shows ranks banks (v.setRank r power row)
      (.node root ranks (Function.update rank ⟨r, hr⟩ changed)) := by
  refine ⟨rfl, ?_⟩
  intro i
  by_cases hi : i = ⟨r, hr⟩
  · subst hi
    simp only [Banks.setRank, Function.update_self]
    exact hchanged
  · have hne : (i : ℕ) ≠ r := fun hir => hi (Fin.ext hir)
    simp only [Banks.setRank, Function.update_of_ne hi, Function.update_of_ne hne]
    exact h.2 i

/-- A rank with one bank changed shows the rows with that bank set. -/
theorem RankShows.setBank {cells : DramCells Command State}
    {bank : Fin banks → Dram Command State 2} {power : Power} {row : ℕ → Option ℤ}
    (h : RankShows banks power row (.node cells banks bank)) {b : ℕ} (hb : b < banks)
    {opened : Option ℤ} {changed : Dram Command State 2} (hleaf : changed.count = 0)
    (hchanged : BankShows changed.cells opened) :
    RankShows banks power (Function.update row b opened)
      (.node cells banks (Function.update bank ⟨b, hb⟩ changed)) := by
  refine ⟨h.1, rfl, ?_⟩
  intro i
  by_cases hi : i = ⟨b, hb⟩
  · subst hi
    simp only [Function.update_self]
    exact ⟨hleaf, hchanged⟩
  · have hne : (i : ℕ) ≠ b := fun hib => hi (Fin.ext hib)
    simp only [Function.update_of_ne hi, Function.update_of_ne hne]
    exact h.2.2 i

/-- A command that reaches a bank changes the tree as it changes the abstract channel. -/
theorem Shows.updateState_bank {d : Dram Command State 0} {cmd : Command} {addr : ℕ → ℤ}
    {r b : ℕ} (h : Shows ranks banks v d) (hcmd : ForBank cmd)
    (haddr : InBank ranks banks addr r b) (hact : cmd = .act → v.row r b = none) :
    ∃ d', d.updateState (spec s ranks banks) cmd addr = some d' ∧
      Shows ranks banks (v.after banks cmd r b (addr 3)) d' := by
  obtain ⟨root, count, rank⟩ := d
  obtain ⟨rfl, hranks⟩ := h
  have hall : Shows count banks v (.node root count rank) := ⟨rfl, hranks⟩
  have hrank := hranks ⟨r, haddr.rank_lt⟩
  cases hnode : rank ⟨r, haddr.rank_lt⟩ with
  | node cells n bank =>
    rw [hnode] at hrank
    obtain ⟨hpower, rfl, hbanks⟩ := hrank
    have hbank := hbanks ⟨b, haddr.bank_lt⟩
    cases hleaf : bank ⟨b, haddr.bank_lt⟩ with
    | node bankCells rows row =>
      rw [hleaf] at hbank
      have hafter : ∃ changed, bankLambda cmd (.node bankCells rows row : Dram Command State 2)
          (addr 3) = .node changed rows row ∧
            BankShows changed (bankAfter (v.row r b) cmd (addr 3)) :=
        bankLambda_shows hbank.2 hcmd hact
      obtain ⟨changed, hlambda, hchanged⟩ := hafter
      have htogo : (spec s count n).scope cmd - 0 = scope cmd - 2 + 2 := by
        have hscope : 2 ≤ scope cmd := hcmd
        show scope cmd - 0 = scope cmd - 2 + 2
        omega
      have hrankShows : RankShows n (v.power r) (v.row r) (.node cells n bank) :=
        ⟨hpower, rfl, hbanks⟩
      have hkeep : (spec s count n).lambda 1 cmd (.node cells n bank) (addr 2) =
          .node cells n bank := rankLambda_of_forBank hcmd (.node cells n bank)
      have hupdate : (Dram.node root count rank).updateState (spec s count n) cmd addr =
          some (.node root count (Function.update rank ⟨r, haddr.rank_lt⟩
            (.node cells n (Function.update bank ⟨b, haddr.bank_lt⟩
              (.node changed rows row))))) := by
        unfold Dram.updateState
        rw [htogo, updateStateDown_descend (i := r) rfl haddr.rank_eq haddr.rank_lt, hnode,
          updateStateDown_descend (i := b) hkeep haddr.bank_eq haddr.bank_lt, hleaf, updateStateDown_leaf hlambda hbank.1]
        rfl
      refine ⟨_, hupdate, ?_⟩
      rw [after_eq_setRow hcmd]
      exact hall.setRank haddr.rank_lt (hrankShows.setBank haddr.bank_lt hbank.1 hchanged)

/-- What a command that stops at its rank does to it in the tree. -/
theorem rankLambda_shows {node : Dram Command State 1} {cmd : Command} {r : ℕ}
    (h : RankShows banks (v.power r) (v.row r) node) (hcmd : ¬ForBank cmd) (b : ℕ) (row : ℤ) :
    RankShows banks ((v.after banks cmd r b row).power r) ((v.after banks cmd r b row).row r)
      (rankLambda cmd node) := by
  obtain ⟨cells, count, bank⟩ := node
  obtain ⟨hpower, rfl, hbanks⟩ := h
  cases cmd
  case prea =>
    simp only [Banks.after, Banks.setRank, Function.update_self, rankLambda]
    refine ⟨hpower, rfl, ?_⟩
    intro i
    have hbank := hbanks i
    cases hleaf : bank i with
    | node bankCells rows row =>
      rw [hleaf] at hbank
      simp only [hleaf]
      exact ⟨hbank.1, bankShows_closedCells bankCells⟩
  case pde =>
    simp only [Banks.after, Banks.setPower, Banks.setRank, Function.update_self, rankLambda,
      exists_ne_closed_iff hbanks]
    by_cases hopen : v.AnyOpen count r
    · rw [if_pos hopen, if_pos hopen]
      exact ⟨rfl, rfl, hbanks⟩
    · rw [if_neg hopen, if_neg hopen]
      exact ⟨rfl, rfl, hbanks⟩
  case ref => exact ⟨hpower, rfl, hbanks⟩
  case pdx | sre | srx =>
    simp only [Banks.after, Banks.setPower, Banks.setRank, Function.update_self, rankLambda]
    exact ⟨rfl, rfl, hbanks⟩
  all_goals exact absurd (by decide) hcmd

/-- A command for a rank changes that rank only. -/
theorem after_eq_setRank {cmd : Command} (hcmd : ¬ForBank cmd) (r b : ℕ) (row : ℤ) :
    v.after banks cmd r b row = v.setRank r ((v.after banks cmd r b row).power r)
      ((v.after banks cmd r b row).row r) := by
  cases cmd
  case prea | pde | pdx | sre | srx =>
    simp [Banks.after, Banks.setPower, Banks.setRank]
  case ref => simp [Banks.after]
  all_goals exact absurd (by decide) hcmd

/-- A command that stops at its rank changes the tree as it changes the abstract channel. -/
theorem Shows.updateState_rank {d : Dram Command State 0} {cmd : Command} {addr : ℕ → ℤ}
    {r : ℕ} (h : Shows ranks banks v d) (hcmd : ¬ForBank cmd) (haddr : InRank ranks addr r)
    (b : ℕ) (row : ℤ) :
    ∃ d', d.updateState (spec s ranks banks) cmd addr = some d' ∧
      Shows ranks banks (v.after banks cmd r b row) d' := by
  obtain ⟨root, count, rank⟩ := d
  obtain ⟨rfl, hranks⟩ := h
  have hall : Shows count banks v (.node root count rank) := ⟨rfl, hranks⟩
  have htogo : (spec s count banks).scope cmd - 0 = 0 + 1 := by
    cases cmd
    case prea | ref | pde | pdx | sre | srx => rfl
    all_goals exact absurd (by decide) hcmd
  have hupdate : (Dram.node root count rank).updateState (spec s count banks) cmd addr =
      some (.node root count (Function.update rank ⟨r, haddr.rank_lt⟩
        (rankLambda cmd (rank ⟨r, haddr.rank_lt⟩)))) := by
    unfold Dram.updateState
    rw [htogo, updateStateDown_descend (i := r) rfl haddr.rank_eq haddr.rank_lt]
    rfl
  refine ⟨_, hupdate, ?_⟩
  rw [after_eq_setRank hcmd]
  exact hall.setRank haddr.rank_lt (rankLambda_shows (hranks ⟨r, haddr.rank_lt⟩) hcmd b row)

/-! ## Rows and timing -/

/-- A row is hit when it is the open row of its bank. -/
theorem Shows.checkRowHit {d : Dram Command State 0} {cmd : Command} {addr : ℕ → ℤ} {r b : ℕ}
    (h : Shows ranks banks v d) (hcmd : cmd = .rd ∨ cmd = .wr)
    (haddr : InBank ranks banks addr r b) :
    d.checkRowHit (spec s ranks banks) cmd addr =
      some (decide (v.row r b = some (addr 3))) := by
  obtain ⟨root, count, rank⟩ := d
  obtain ⟨rfl, hranks⟩ := h
  unfold Dram.checkRowHit
  rw [checkRow_descend (i := r) rfl haddr.rank_eq haddr.rank_lt]
  have hrank := hranks ⟨r, haddr.rank_lt⟩
  generalize rank ⟨r, haddr.rank_lt⟩ = d at hrank
  obtain ⟨cells, banks, bank⟩ := d
  obtain ⟨hpower, rfl, hbanks⟩ := hrank
  rw [checkRow_descend (i := b) rfl haddr.bank_eq haddr.bank_lt]
  have hbank := hbanks ⟨b, haddr.bank_lt⟩
  generalize bank ⟨b, haddr.bank_lt⟩ = d at hbank
  obtain ⟨cells, rows, row⟩ := d
  rw [checkRow_of_answer bankRowhit (if_pos ⟨rfl, hcmd⟩)]
  unfold bankRowhit
  rw [hbank.2.state_eq, hbank.2.rowState_eq]
  show _ = some (decide (v.row r b = some (addr 3)))
  cases v.row r b with
  | none => rfl
  | some opened => by_cases hrow : opened = addr 3 <;> simp [hrow]

/-- Reads and writes are never asked about a bank that is neither open nor closed. -/
theorem Shows.checkRowOpen {d : Dram Command State 0} {cmd : Command} {addr : ℕ → ℤ} {r b : ℕ}
    (h : Shows ranks banks v d) (hcmd : cmd = .rd ∨ cmd = .wr)
    (haddr : InBank ranks banks addr r b) :
    d.checkRowOpen (spec s ranks banks) cmd addr = some (v.row r b).isSome := by
  obtain ⟨root, count, rank⟩ := d
  obtain ⟨rfl, hranks⟩ := h
  unfold Dram.checkRowOpen
  rw [checkRow_descend (i := r) rfl haddr.rank_eq haddr.rank_lt]
  have hrank := hranks ⟨r, haddr.rank_lt⟩
  generalize rank ⟨r, haddr.rank_lt⟩ = d at hrank
  obtain ⟨cells, banks, bank⟩ := d
  obtain ⟨hpower, rfl, hbanks⟩ := hrank
  rw [checkRow_descend (i := b) rfl haddr.bank_eq haddr.bank_lt]
  have hbank := hbanks ⟨b, haddr.bank_lt⟩
  generalize bank ⟨b, haddr.bank_lt⟩ = d at hbank
  obtain ⟨cells, rows, row⟩ := d
  rw [checkRow_of_answer bankRowopen (if_pos ⟨rfl, hcmd⟩)]
  unfold bankRowopen
  rw [hbank.2.state_eq]
  show _ = some (v.row r b).isSome
  cases v.row r b <;> rfl

end Representation

/-! ## Updates that leave states alone -/

/-- The part of the cells that is neither timing nor a counter. -/
def stateCells (cells : DramCells Command State) : DramCells Command State :=
  { cells with
    id := 0, curServing := 0, beginOfServing := -1, next := fun _ => -1, prev := fun _ => [] }

/-- What a tree shows is read from its states. -/
theorem shows_map {ranks banks : ℕ} {v : Banks} {d : Dram Command State 0} :
    Shows ranks banks v (d.map stateCells) ↔ Shows ranks banks v d := by
  have hbank (bank : Dram Command State 2) (opened : Option ℤ) :
      ((bank.map stateCells).count = 0 ∧ BankShows (bank.map stateCells).cells opened) ↔
        (bank.count = 0 ∧ BankShows bank.cells opened) := by
    obtain ⟨cells, count, child⟩ := bank
    exact and_congr_right' ⟨fun h => ⟨h.1, h.2⟩, fun h => ⟨h.1, h.2⟩⟩
  have hrank (rank : Dram Command State 1) (power : Power) (row : ℕ → Option ℤ) :
      RankShows banks power row (rank.map stateCells) ↔ RankShows banks power row rank := by
    obtain ⟨cells, count, child⟩ := rank
    simp only [Dram.map, stateCells, RankShows]
    exact and_congr_right' (and_congr_right' (forall_congr' fun b => hbank _ _))
  obtain ⟨cells, count, child⟩ := d
  simp only [Dram.map, Shows, hrank]

/-- A part of the cells that no timing belongs to is the same after the timing of a command. -/
theorem updateTiming_map {Cmd' State' : Type} (f : DramCells Command State → DramCells Cmd' State')
    (hf : ∀ (cells : DramCells Command State) (next : Command → ℤ) (prev : Command → List ℤ),
      f { cells with next := next, prev := prev } = f cells)
    (table : TimingTable Command) (cmd : Command) (addr : ℕ → ℤ) (clk : ℤ) {level : ℕ}
    (d : Dram Command State level) :
    (d.updateTiming table cmd addr clk).map f = d.map f := by
  induction d with
  | node cells count child ih =>
    unfold Dram.updateTiming
    split
    · simp only [Dram.map]
      congr 1
      exact hf cells _ cells.prev
    · simp only [Dram.map, ih]
      congr 1
      exact hf cells _ _

/-- The timing of a command leaves the represented channel as it is. -/
theorem Shows.updateTiming {ranks banks : ℕ} {v : Banks} {d : Dram Command State 0}
    (h : Shows ranks banks v d) (table : TimingTable Command) (cmd : Command) (addr : ℕ → ℤ)
    (clk : ℤ) : Shows ranks banks v (d.updateTiming table cmd addr clk) := by
  rw [← shows_map, updateTiming_map stateCells (fun _ _ _ => rfl), shows_map]
  exact h

end MacSim.Analysis.Ramulator
