import MacSim.Analysis.RamulatorBanks

/-!
# The command protocol of DDR3

Whatever the order in which a controller serves its requests, the prerequisites of `DDR3` keep the
commands of a channel in order: rows are only read and written while they are open and their rank
is awake, only closed banks are activated, and a rank is refreshed with all its banks closed.  A
request that is served alone gets to its own command after at most three others.
-/

set_option autoImplicit false

namespace MacSim.Analysis.Ramulator

open MacSim.Model.Ramulator MacSim.Model.Ramulator.Ddr3

/-! ## What a command relies on -/

/-- The state of a rank and of a bank of it that a command is meant for. -/
structure Fits (v : Banks) (banks : ℕ) (c : Command) (r b : ℕ) (row : ℤ) : Prop where
  access : isAccessing c = true → v.power r = .up ∧ v.row r b = some row
  act : c = .act → v.power r = .up ∧ v.row r b = none
  pre : c = .pre → v.row r b ≠ none
  prea : c = .prea → v.AnyOpen banks r
  ref : c = .ref → ¬v.AnyOpen banks r
  pdx : c = .pdx → v.power r = .actDown ∨ v.power r = .preDown
  srx : c = .srx → v.power r = .selfRefresh

/-- A rank needs no waking exactly when it is up. -/
theorem Power.wake_eq_none {p : Power} : p.wake = none ↔ p = .up := by
  cases p <;> simp [Power.wake]

/-- In a rank that is up an access needs what its bank asks for. -/
theorem accessNeeds_of_up {v : Banks} {r : ℕ} (h : v.power r = .up) (cmd : Command) (b : ℕ)
    (row : ℤ) : v.accessNeeds cmd r b row = bankNeeds (v.row r b) cmd row := by
  unfold Banks.accessNeeds
  rw [h]
  rfl

/-- What a read or write needs fits, with or without the precharge after it. -/
theorem fits_accessNeeds (v : Banks) (banks : ℕ) {cmd : Command} (hcmd : cmd = .rd ∨ cmd = .wr)
    (r b : ℕ) (row : ℤ) : Fits v banks (v.accessNeeds cmd r b row) r b row := by
  cases hpower : v.power r with
  | up =>
    rw [accessNeeds_of_up hpower]
    cases hrow : v.row r b with
    | none => constructor <;> simp [bankNeeds, isAccessing, hpower, hrow]
    | some opened =>
      by_cases hopened : opened = row
      · rcases hcmd with rfl | rfl <;>
          constructor <;> simp [bankNeeds, hopened, hpower, hrow]
      · constructor <;> simp [bankNeeds, hopened, isAccessing, hrow]
  | actDown | preDown | selfRefresh =>
    unfold Banks.accessNeeds
    rw [hpower]
    constructor <;> simp [Power.wake, isAccessing, hpower]

/-- What a rank needs fits its state. -/
theorem fits_rankNeeds (v : Banks) (banks : ℕ) {cmd : Command}
    (hcmd : cmd = .ref ∨ cmd = .pde ∨ cmd = .sre) (r b : ℕ) (row : ℤ) :
    Fits v banks (v.rankNeeds banks cmd r) r b row := by
  rcases hcmd with rfl | rfl | rfl
  · by_cases hopen : v.AnyOpen banks r <;> constructor <;>
      simp [Banks.rankNeeds, hopen, isAccessing]
  · by_cases hself : v.power r = .selfRefresh <;> constructor <;>
      simp [Banks.rankNeeds, hself, isAccessing]
  · by_cases hdown : v.power r = .actDown ∨ v.power r = .preDown <;> constructor <;>
      simp [Banks.rankNeeds, hdown, isAccessing]

/-- The command with a precharge after it, if there is one.
SRCLINE: ramulator/src/Controller.h:602-609 -/
def autoPrecharge : Command → Command
  | .rd => .rda
  | .wr => .wra
  | c => c

/-- The automatic precharge fits where the command does. -/
theorem Fits.autoPrecharge {v : Banks} {banks : ℕ} {c : Command} {r b : ℕ} {row : ℤ}
    (h : Fits v banks c r b row) : Fits v banks (autoPrecharge c) r b row := by
  cases c
  case rd | wr =>
    have haccess := h.access rfl
    constructor <;> simp [Ramulator.autoPrecharge, isAccessing, haccess]
  all_goals exact h

/-! ## How far a request is from its own command -/

/-- Serving the request alone issues `n` other commands before its own, at whatever clocks. -/
def ServedAfter (spec : DramSpec Command State) (cmd : Command) (addr : ℕ → ℤ) :
    ℕ → Channel Command State → Prop
  | 0, ch => ch.root.decode spec cmd addr = some cmd
  | n + 1, ch =>
    ∃ c, ch.root.decode spec cmd addr = some c ∧ c ≠ cmd ∧
      ∀ clk, ∃ ch', ch.update spec c addr clk = some ch' ∧ ServedAfter spec cmd addr n ch'

section Progress

variable {s : SpeedEntry} {ranks banks : ℕ} {v : Banks} {ch : Channel Command State}

/-- A change of the state that succeeds is an update of the channel, and shows the same. -/
theorem Shows.update_of_updateState {d : Dram Command State 0} {c : Command} {addr : ℕ → ℤ}
    (h : Shows ranks banks v d)
    (hd : ch.root.updateState (spec s ranks banks) c addr = some d) (clk : ℤ) :
    ∃ ch', ch.update (spec s ranks banks) c addr clk = some ch' ∧
      Shows ranks banks v ch'.root := by
  refine ⟨{ root := d.updateTiming (spec s ranks banks).toTimingTable c addr clk, curClk := clk },
    ?_, h.updateTiming ..⟩
  unfold Channel.update
  rw [hd]
  rfl

/-- A command that fits leads from one represented channel to the next. -/
theorem Shows.update {c : Command} {addr : ℕ → ℤ} {r b : ℕ}
    (h : Shows ranks banks v ch.root) (haddr : InBank ranks banks addr r b)
    (hfits : Fits v banks c r b (addr 3)) (clk : ℤ) :
    ∃ ch', ch.update (spec s ranks banks) c addr clk = some ch' ∧
      Shows ranks banks (v.after banks c r b (addr 3)) ch'.root := by
  by_cases hcmd : ForBank c
  · obtain ⟨d, hd, hshows⟩ := h.updateState_bank (s := s) hcmd haddr fun hact => (hfits.act hact).2
    exact hshows.update_of_updateState hd clk
  · obtain ⟨d, hd, hshows⟩ := h.updateState_rank (s := s) hcmd haddr.inRank b (addr 3)
    exact hshows.update_of_updateState hd clk

/-- A command for a rank updates the channel and what it shows. -/
theorem Shows.update_rank {c : Command} {addr : ℕ → ℤ} {r : ℕ}
    (h : Shows ranks banks v ch.root) (hcmd : ¬ForBank c) (haddr : InRank ranks addr r)
    (b : ℕ) (row clk : ℤ) :
    ∃ ch', ch.update (spec s ranks banks) c addr clk = some ch' ∧
      Shows ranks banks (v.after banks c r b row) ch'.root := by
  obtain ⟨d, hd, hshows⟩ := h.updateState_rank (s := s) hcmd haddr b row
  exact hshows.update_of_updateState hd clk

/-- A request is one command further from its own than it is after the command it needs. -/
theorem servedAfter_succ {cmd : Command} {addr : ℕ → ℤ} {n : ℕ} {c : Command} {v' : Banks}
    (hdecode : ch.root.decode (spec s ranks banks) cmd addr = some c) (hne : c ≠ cmd)
    (hupdate : ∀ clk, ∃ ch', ch.update (spec s ranks banks) c addr clk = some ch' ∧
      Shows ranks banks v' ch'.root)
    (hnext : ∀ ch' : Channel Command State, Shows ranks banks v' ch'.root →
      ServedAfter (spec s ranks banks) cmd addr n ch') :
    ServedAfter (spec s ranks banks) cmd addr (n + 1) ch := by
  refine ⟨c, hdecode, hne, ?_⟩
  intro clk
  obtain ⟨ch', hch', hshows⟩ := hupdate clk
  exact ⟨ch', hch', hnext ch' hshows⟩

section Access

variable {cmd : Command} {addr : ℕ → ℤ} {r b : ℕ}

/-- An access to the open row is served at once. -/
theorem servedAfter_open (hcmd : cmd = .rd ∨ cmd = .wr) (haddr : InBank ranks banks addr r b)
    (h : Shows ranks banks v ch.root) (hpower : v.power r = .up)
    (hrow : v.row r b = some (addr 3)) :
    ServedAfter (spec s ranks banks) cmd addr 0 ch := by
  unfold ServedAfter
  rw [h.decode_access hcmd haddr, accessNeeds_of_up hpower, hrow, bankNeeds, if_pos rfl]

/-- An access to a closed bank is served after one command. -/
theorem servedAfter_closed (hcmd : cmd = .rd ∨ cmd = .wr) (haddr : InBank ranks banks addr r b)
    (h : Shows ranks banks v ch.root) (hpower : v.power r = .up) (hrow : v.row r b = none) :
    ServedAfter (spec s ranks banks) cmd addr 1 ch := by
  have hneeds : v.accessNeeds cmd r b (addr 3) = .act := by
    rw [accessNeeds_of_up hpower, hrow, bankNeeds]
  have hfits := hneeds ▸ fits_accessNeeds v banks hcmd r b (addr 3)
  refine servedAfter_succ (hneeds ▸ h.decode_access hcmd haddr)
    (by rcases hcmd with rfl | rfl <;> decide) (h.update haddr hfits) ?_
  intro ch' hshows
  apply servedAfter_open hcmd haddr hshows
  · simpa [Banks.after, Banks.setRow, Banks.setRank] using hpower
  · simp [Banks.after, Banks.setRow, Banks.setRank]

/-- How many commands a bank of a rank that is awake is away from an access to a row. -/
def rowDistance (opened : Option ℤ) (row : ℤ) : ℕ :=
  match opened with
  | none => 1
  | some opened => if opened = row then 0 else 2

/-- A row is at most two commands away. -/
theorem rowDistance_le (opened : Option ℤ) (row : ℤ) : rowDistance opened row ≤ 2 := by
  unfold rowDistance
  split
  · omega
  · split <;> omega

/-- In a rank that is up an access is served after as many commands as its row is away. -/
theorem servedAfter_up (hcmd : cmd = .rd ∨ cmd = .wr) (haddr : InBank ranks banks addr r b)
    (h : Shows ranks banks v ch.root) (hpower : v.power r = .up) :
    ServedAfter (spec s ranks banks) cmd addr (rowDistance (v.row r b) (addr 3)) ch := by
  cases hrow : v.row r b with
  | none => exact servedAfter_closed hcmd haddr h hpower hrow
  | some opened =>
    by_cases hopened : opened = addr 3
    · rw [rowDistance, if_pos hopened]
      exact servedAfter_open hcmd haddr h hpower (hopened ▸ hrow)
    · have hneeds : v.accessNeeds cmd r b (addr 3) = .pre := by
        rw [accessNeeds_of_up hpower, hrow, bankNeeds, if_neg hopened]
      have hfits := hneeds ▸ fits_accessNeeds v banks hcmd r b (addr 3)
      rw [rowDistance, if_neg hopened]
      refine servedAfter_succ (hneeds ▸ h.decode_access hcmd haddr)
        (by rcases hcmd with rfl | rfl <;> decide) (h.update haddr hfits) ?_
      intro ch' hshows
      apply servedAfter_closed hcmd haddr hshows
      · simpa [Banks.after, Banks.setRow, Banks.setRank] using hpower
      · simp [Banks.after, Banks.setRow, Banks.setRank]

/-- A read or write is at most three commands away: one to wake the rank, one to close the bank
and one to open the row. -/
theorem servedAfter_access (hcmd : cmd = .rd ∨ cmd = .wr) (haddr : InBank ranks banks addr r b)
    (h : Shows ranks banks v ch.root) :
    ∃ n ≤ 3, ServedAfter (spec s ranks banks) cmd addr n ch := by
  have hdistance := rowDistance_le (v.row r b) (addr 3)
  cases hwake : (v.power r).wake with
  | none => exact ⟨_, by omega, servedAfter_up hcmd haddr h (Power.wake_eq_none.mp hwake)⟩
  | some c =>
    have hneeds : v.accessNeeds cmd r b (addr 3) = c := by
      rw [Banks.accessNeeds, hwake, Option.getD_some]
    have hfits := hneeds ▸ fits_accessNeeds v banks hcmd r b (addr 3)
    have hc : c = .pdx ∨ c = .srx := by
      cases hpower : v.power r <;> simp_all [Power.wake]
    have hup : (v.after banks c r b (addr 3)).power r = .up := by
      rcases hc with rfl | rfl <;> simp [Banks.after, Banks.setPower, Banks.setRank]
    have hrow : (v.after banks c r b (addr 3)).row r b = v.row r b := by
      rcases hc with rfl | rfl <;> simp [Banks.after, Banks.setPower, Banks.setRank]
    refine ⟨rowDistance (v.row r b) (addr 3) + 1, by omega,
      servedAfter_succ (hneeds ▸ h.decode_access hcmd haddr) ?_ (h.update haddr hfits) ?_⟩
    · rcases hc with rfl | rfl <;> rcases hcmd with rfl | rfl <;> decide
    · intro ch' hshows
      exact hrow ▸ servedAfter_up hcmd haddr hshows hup

end Access

/-- A refresh, or a change of the power mode, is at most one command away. -/
theorem servedAfter_rank {cmd : Command} {addr : ℕ → ℤ} {r : ℕ}
    (hcmd : cmd = .ref ∨ cmd = .pde ∨ cmd = .sre) (haddr : InRank ranks addr r)
    (h : Shows ranks banks v ch.root) :
    ∃ n ≤ 1, ServedAfter (spec s ranks banks) cmd addr n ch := by
  by_cases hneeds : v.rankNeeds banks cmd r = cmd
  · refine ⟨0, by omega, ?_⟩
    unfold ServedAfter
    rw [h.decode_rank hcmd haddr, hneeds]
  · have hother : ¬ForBank (v.rankNeeds banks cmd r) ∧
        (v.after banks (v.rankNeeds banks cmd r) r 0 0).rankNeeds banks cmd r = cmd := by
      rcases hcmd with rfl | rfl | rfl
      · have hopen : v.AnyOpen banks r := by
          by_contra hclosed
          exact hneeds (if_neg hclosed)
        have hprea : v.rankNeeds banks .ref r = .prea := if_pos hopen
        rw [hprea]
        refine ⟨by decide, if_neg ?_⟩
        rintro ⟨b, hb, hrow⟩
        exact hrow (by simp [Banks.after, Banks.setRank])
      · have hself : v.power r = .selfRefresh := by
          by_contra hpower
          exact hneeds (if_neg hpower)
        have hsrx : v.rankNeeds banks .pde r = .srx := if_pos hself
        rw [hsrx]
        exact ⟨by decide, if_neg (by simp [Banks.after, Banks.setPower, Banks.setRank])⟩
      · have hdown : v.power r = .actDown ∨ v.power r = .preDown := by
          by_contra hpower
          exact hneeds (if_neg hpower)
        have hpdx : v.rankNeeds banks .sre r = .pdx := if_pos hdown
        rw [hpdx]
        exact ⟨by decide, if_neg (by simp [Banks.after, Banks.setPower, Banks.setRank])⟩
    refine ⟨1, le_rfl, servedAfter_succ (h.decode_rank hcmd haddr) hneeds
      (h.update_rank hother.1 haddr 0 0) ?_⟩
    intro ch' hshows
    unfold ServedAfter
    rw [hshows.decode_rank hcmd haddr, hother.2]

end Progress

/-! ## Runs -/

/-- A request as the channel sees it: a row of a bank to read or write, or a rank to refresh or to
put to sleep. -/
inductive Wants (ranks banks : ℕ) (addr : ℕ → ℤ) (r b : ℕ) : Command → Prop
  | access {cmd : Command} (hcmd : cmd = .rd ∨ cmd = .wr)
      (haddr : InBank ranks banks addr r b) : Wants ranks banks addr r b cmd
  | rank {cmd : Command} (hcmd : cmd = .ref ∨ cmd = .pde ∨ cmd = .sre)
      (haddr : InRank ranks addr r) : Wants ranks banks addr r b cmd

/-- The channels that a controller can lead to: it serves requests in any order, with or without a
precharge after an access, and closes banks that are open. -/
inductive Drives (s : SpeedEntry) (ranks banks : ℕ) (id : ℤ) : Channel Command State → Prop
  | start : Drives s ranks banks id (Channel.new (spec s ranks banks) id)
  | serve {ch ch' : Channel Command State} {cmd c : Command} {addr : ℕ → ℤ} {r b : ℕ}
      (before : Drives s ranks banks id ch) (wants : Wants ranks banks addr r b cmd)
      (needs : ch.root.decode (spec s ranks banks) cmd addr = some c) (upgrade : Bool) (clk : ℤ)
      (update : ch.update (spec s ranks banks) (if upgrade then autoPrecharge c else c) addr clk =
        some ch') : Drives s ranks banks id ch'
  | close {ch ch' : Channel Command State} {addr : ℕ → ℤ} {r b : ℕ}
      (before : Drives s ranks banks id ch) (victim : InBank ranks banks addr r b)
      (opened : ch.root.checkRowOpen (spec s ranks banks) .rd addr = some true) (clk : ℤ)
      (update : ch.update (spec s ranks banks) .pre addr clk = some ch') :
      Drives s ranks banks id ch'

/-- The channel represents ranks and banks, and for each request there is a command, which fits
them, which the channel takes, and which is not far from the one asked for. -/
def InOrder (s : SpeedEntry) (ranks banks : ℕ) (ch : Channel Command State) : Prop :=
  ∃ v, Shows ranks banks v ch.root ∧
    ∀ cmd addr r b, Wants ranks banks addr r b cmd →
      (∃ c, ch.root.decode (spec s ranks banks) cmd addr = some c ∧
        Fits v banks c r b (addr 3) ∧
        ∀ (upgrade : Bool) (clk : ℤ), ∃ ch',
          ch.update (spec s ranks banks) (if upgrade then autoPrecharge c else c) addr clk =
            some ch') ∧
      ∃ n ≤ 3, ServedAfter (spec s ranks banks) cmd addr n ch

section Runs

variable {s : SpeedEntry} {ranks banks : ℕ} {v : Banks} {ch : Channel Command State}

/-- A command for a rank needs itself, a precharge of all banks or the end of a power state. -/
theorem rankNeeds_cases (v : Banks) (banks : ℕ) {cmd : Command}
    (hcmd : cmd = .ref ∨ cmd = .pde ∨ cmd = .sre) (r : ℕ) :
    v.rankNeeds banks cmd r = cmd ∨ v.rankNeeds banks cmd r = .prea ∨
      v.rankNeeds banks cmd r = .srx ∨ v.rankNeeds banks cmd r = .pdx := by
  rcases hcmd with rfl | rfl | rfl
  all_goals
    simp only [Banks.rankNeeds]
    split <;> simp

/-- What a rank needs is no command for a bank. -/
theorem not_forBank_rankNeeds (v : Banks) (banks : ℕ) {cmd : Command}
    (hcmd : cmd = .ref ∨ cmd = .pde ∨ cmd = .sre)
    (r : ℕ) (upgrade : Bool) :
    ¬ForBank (if upgrade then autoPrecharge (v.rankNeeds banks cmd r)
      else v.rankNeeds banks cmd r) := by
  rcases rankNeeds_cases v banks hcmd r with h | h | h | h
  · rw [h]
    rcases hcmd with rfl | rfl | rfl <;> cases upgrade <;> decide
  all_goals
    rw [h]
    cases upgrade <;> decide

/-- What a request needs fits, and leads to a channel that represents ranks and banks again. -/
theorem Shows.serve {cmd : Command} {addr : ℕ → ℤ} {r b : ℕ}
    (h : Shows ranks banks v ch.root) (hwants : Wants ranks banks addr r b cmd) :
    ∃ c, ch.root.decode (spec s ranks banks) cmd addr = some c ∧
      Fits v banks c r b (addr 3) ∧
      ∀ (upgrade : Bool) (clk : ℤ), ∃ ch' v',
        ch.update (spec s ranks banks) (if upgrade then autoPrecharge c else c) addr clk =
          some ch' ∧ Shows ranks banks v' ch'.root := by
  cases hwants with
  | access hcmd haddr =>
    have hfits := fits_accessNeeds v banks hcmd r b (addr 3)
    refine ⟨_, h.decode_access hcmd haddr, hfits, ?_⟩
    intro upgrade clk
    have hupgrade : Fits v banks (if upgrade then autoPrecharge (v.accessNeeds cmd r b (addr 3))
        else v.accessNeeds cmd r b (addr 3)) r b (addr 3) := by
      cases upgrade
      · exact hfits
      · exact hfits.autoPrecharge
    obtain ⟨ch', hch', hshows⟩ := h.update (s := s) haddr hupgrade clk
    exact ⟨ch', _, hch', hshows⟩
  | rank hcmd haddr =>
    refine ⟨_, h.decode_rank hcmd haddr, fits_rankNeeds v banks hcmd .., ?_⟩
    intro upgrade clk
    obtain ⟨ch', hch', hshows⟩ :=
      h.update_rank (s := s) (not_forBank_rankNeeds v banks hcmd r upgrade) haddr 0 0 clk
    exact ⟨ch', _, hch', hshows⟩

/-- Closing an open bank fits too. -/
theorem Shows.close {addr : ℕ → ℤ} {r b : ℕ} (h : Shows ranks banks v ch.root)
    (haddr : InBank ranks banks addr r b)
    (hopen : ch.root.checkRowOpen (spec s ranks banks) .rd addr = some true) (clk : ℤ) :
    ∃ ch' v', ch.update (spec s ranks banks) .pre addr clk = some ch' ∧
      Shows ranks banks v' ch'.root := by
  have hrow : v.row r b ≠ none := by
    rw [h.checkRowOpen (.inl rfl) haddr, Option.some_inj] at hopen
    exact Option.isSome_iff_ne_none.mp hopen
  have hfits : Fits v banks .pre r b (addr 3) := by
    constructor <;> simp [isAccessing, hrow]
  obtain ⟨ch', hch', hshows⟩ := h.update (s := s) haddr hfits clk
  exact ⟨ch', _, hch', hshows⟩

/-- Every channel of a run represents ranks and banks. -/
theorem Drives.shows {id : ℤ} (h : Drives s ranks banks id ch) :
    ∃ v, Shows ranks banks v ch.root := by
  induction h with
  | start => exact ⟨.allClosed, shows_construct id⟩
  | @serve ch ch' cmd c addr r b before wants needs upgrade clk update ih =>
    obtain ⟨v, hv⟩ := ih
    obtain ⟨c', hc', hfits, hupdate⟩ := hv.serve (s := s) wants
    obtain rfl : c = c' := Option.some_inj.mp (needs.symm.trans hc')
    obtain ⟨ch'', v', hch'', hshows⟩ := hupdate upgrade clk
    obtain rfl : ch' = ch'' := Option.some_inj.mp (update.symm.trans hch'')
    exact ⟨v', hshows⟩
  | @close ch ch' addr r b before victim opened clk update ih =>
    obtain ⟨v, hv⟩ := ih
    obtain ⟨ch'', v', hch'', hshows⟩ := hv.close victim opened clk
    obtain rfl : ch' = ch'' := Option.some_inj.mp (update.symm.trans hch'')
    exact ⟨v', hshows⟩

/-- In every run, whatever is served in whatever order, the next command of a request exists, fits
the ranks and banks it finds, and at most two other prerequisites follow it. -/
theorem drives_inOrder {id : ℤ} (h : Drives s ranks banks id ch) : InOrder s ranks banks ch := by
  obtain ⟨v, hv⟩ := h.shows
  refine ⟨v, hv, ?_⟩
  intro cmd addr r b hwants
  refine ⟨?_, ?_⟩
  · obtain ⟨c, hdecode, hfits, hupdate⟩ := hv.serve (s := s) hwants
    refine ⟨c, hdecode, hfits, ?_⟩
    intro upgrade clk
    obtain ⟨ch', v', hch', hshows⟩ := hupdate upgrade clk
    exact ⟨ch', hch'⟩
  · cases hwants with
    | access hcmd haddr => exact servedAfter_access hcmd haddr hv
    | rank hcmd haddr =>
      obtain ⟨n, hn, hserved⟩ := servedAfter_rank hcmd haddr hv
      exact ⟨n, by omega, hserved⟩

/-- The theorem at a channel of two ranks whose first bank was just activated. -/
theorem drives_inOrder_activated :
    ∃ ch, Drives speed1600K 2 8 0 ch ∧ InOrder speed1600K 2 8 ch :=
  have haddr : InBank 2 8 (fun level => if level = 3 then 5 else 0) 0 0 :=
    ⟨rfl, rfl, by decide, by decide⟩
  have h : Drives speed1600K 2 8 0 _ :=
    .serve (c := .act) .start (.access (.inl rfl) haddr) rfl false 0 rfl
  ⟨_, h, drives_inOrder h⟩

end Runs

end MacSim.Analysis.Ramulator
