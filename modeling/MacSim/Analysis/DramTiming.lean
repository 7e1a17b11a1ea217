import MacSim.Analysis.DramBooks
import Mathlib.Data.List.Chain

/-!
# The bank state machine of the DRAM controller

The trace of a bank is a sequence of services.  A service starts when an entry is selected and
ends when it is complete; in between the bank is closed if another row is open, the row of the
entry is opened if none is, and then come the column access and the data.  `Paced` says this
of a trace, together with the times that have to pass between two events.

`Phase` ties the arrays of a bank to the last event of its trace.  It needs that the row id of
a request is not `ULLONG_MAX`, the value that the controller has for a closed bank.
-/

set_option autoImplicit false

namespace MacSim.Analysis.Dram

open MacSim.Model MacSim.Computation

variable {k : DramKnobs} {s s' : DramCtrl} {b c : ℕ} {e : DrbId}

/-! ## Traces -/

/-- The second event may come right after the first. -/
def precedes : BankEvent → BankEvent → Bool
  | .select, .precharge | .select, .activate | .select, .column => true
  | .precharge, .activate => true
  | .activate, .column => true
  | .column, .data => true
  | .data, .complete => true
  | .complete, .select => true
  | _, _ => false

/-- The time that an event keeps its bank busy, at least. -/
def busyFor (k : DramKnobs) : BankEvent → ℕ
  | .precharge => k.precharge
  | .activate => k.activate
  | .column => k.column
  | _ => 0

/-- The event `q` may come after `p` and is late enough. -/
def Follows (k : DramKnobs) (p q : BankEvent × ℕ) : Prop :=
  precedes p.1 q.1 = true ∧ p.2 + busyFor k p.1 ≤ q.2

/-- A trace that starts with a selection and in which every event may follow the one before. -/
structure Paced (k : DramKnobs) (l : List (BankEvent × ℕ)) : Prop where
  start : ∀ p ∈ l.head?, p.1 = .select
  chain : l.IsChain (Follows k)

/-- A log stays paced when its new last event follows the one before. -/
theorem Paced.append {l : List (BankEvent × ℕ)} {p q : BankEvent × ℕ} (h : Paced k l)
    (hlast : l.getLast? = some p) (hpq : Follows k p q) : Paced k (l ++ [q]) where
  start := by
    have hl : l ≠ [] := by
      rintro rfl
      exact (nomatch hlast)
    rw [List.head?_append_of_ne_nil l hl]
    exact h.start
  chain := by
    refine List.isChain_append.mpr ⟨h.chain, List.isChain_singleton q, ?_⟩
    intro x hx y hy
    rw [hlast, Option.mem_some_iff] at hx
    rw [List.head?_cons, Option.mem_some_iff] at hy
    rw [← hx, ← hy]
    exact hpq

/-- A bank without a service in progress can start one. -/
theorem Paced.select {l : List (BankEvent × ℕ)} {t : ℕ} (h : Paced k l)
    (hlast : ∀ p ∈ l.getLast?, p.1 = .complete ∧ p.2 ≤ t) : Paced k (l ++ [(.select, t)]) := by
  cases hl : l.getLast? with
  | none =>
      obtain rfl := List.getLast?_eq_none_iff.mp hl
      exact ⟨by simp, List.isChain_singleton _⟩
  | some p =>
      obtain ⟨hev, ht⟩ := hlast p hl
      refine h.append hl ⟨?_, ?_⟩
      · rw [hev]
        rfl
      · rw [hev]
        exact ht

/-! ## The phases of a bank -/

/-- The row that a command leaves open: none after a precharge, that of the entry after an
activate. -/
def RowAfter (s : DramCtrl) (b : ℕ) (e : DrbId) (ev : BankEvent) : Prop :=
  (ev = .precharge ∧ s.currentRid b = BitVec.allOnes 64) ∨
  (ev = .activate ∧ s.currentRid b = (s.entry e).rid)

/-- Where bank `b` is in its service, with the arrays as they should be then. -/
inductive Phase (k : DramKnobs) (s : DramCtrl) (b : ℕ) : Prop
  | idle (hc : s.currentList b = none) (hd : s.dataReady b = none)
      (hl : ∀ p ∈ (s.trace b).getLast?, p.1 = .complete ∧ p.2 ≤ s.cycle)
  | ready (e : DrbId) (ev : BankEvent) (t : ℕ) (hc : s.currentList b = some e)
      (hst : (s.entry e).state = .cmd) (hd : s.dataReady b = none)
      (hl : (s.trace b).getLast? = some (ev, t)) (ht : t + busyFor k ev ≤ s.cycle)
      (hrow : ev = .select ∨ RowAfter s b e ev)
  | waiting (e : DrbId) (ev : BankEvent) (t : ℕ) (hc : s.currentList b = some e)
      (hst : (s.entry e).state = .cmdWait) (hd : s.dataReady b = none)
      (hl : (s.trace b).getLast? = some (ev, t))
      (ht : s.bankReady b = some (t + busyFor k ev)) (hrow : RowAfter s b e ev)
  | column (e : DrbId) (t : ℕ) (hc : s.currentList b = some e)
      (hst : (s.entry e).state = .data) (hd : s.dataReady b = none)
      (hl : (s.trace b).getLast? = some (.column, t))
      (ht : s.dataAvail b = some (t + k.column)) (hrow : s.currentRid b = (s.entry e).rid)
  | data (e : DrbId) (t : ℕ) (hc : s.currentList b = some e)
      (hst : (s.entry e).state = .dataWait) (hl : (s.trace b).getLast? = some (.data, t))
      (ht : t ≤ s.cycle) (hrow : s.currentRid b = (s.entry e).rid)

/-- The trace of bank `b` is paced and its arrays fit. -/
def InPhase (k : DramKnobs) (s : DramCtrl) (b : ℕ) : Prop := Paced k (s.trace b) ∧ Phase k s b

/-- Nothing that the phase of bank `b` speaks about is different; time may have passed. -/
structure SameBank (b : ℕ) (s s' : DramCtrl) : Prop where
  currentList : s'.currentList b = s.currentList b
  state : ∀ e, s.currentList b = some e → (s'.entry e).state = (s.entry e).state
  rid : ∀ e, s.currentList b = some e → (s'.entry e).rid = (s.entry e).rid
  currentRid : s'.currentRid b = s.currentRid b
  bankReady : s'.bankReady b = s.bankReady b
  dataReady : s'.dataReady b = s.dataReady b
  dataAvail : s'.dataAvail b = s.dataAvail b
  trace : s'.trace b = s.trace b
  cycle : s.cycle ≤ s'.cycle

/-- A bank is the same where the banks are. -/
theorem SameBank.of_sameBanks (h : SameBanks s s') : SameBank b s s' where
  currentList := by rw [h.currentList]
  state e _ := by rw [h.entry]
  rid e _ := by rw [h.entry]
  currentRid := by rw [h.currentRid]
  bankReady := by rw [h.bankReady]
  dataReady := by rw [h.dataReady]
  dataAvail := by rw [h.dataAvail]
  trace := by rw [h.trace]
  cycle := h.cycle.ge

/-- Only entries that are not in service at bank `b` were written. -/
theorem SameBank.of_entry (hentry : ∀ e, s.currentList b = some e → s'.entry e = s.entry e)
    (hcur : s'.currentList = s.currentList) (hrid : s'.currentRid = s.currentRid)
    (hbank : s'.bankReady = s.bankReady) (hdata : s'.dataReady = s.dataReady)
    (havail : s'.dataAvail = s.dataAvail) (htrace : s'.trace = s.trace)
    (hcycle : s.cycle ≤ s'.cycle) : SameBank b s s' where
  currentList := by rw [hcur]
  state e he := by rw [hentry e he]
  rid e he := by rw [hentry e he]
  currentRid := by rw [hrid]
  bankReady := by rw [hbank]
  dataReady := by rw [hdata]
  dataAvail := by rw [havail]
  trace := by rw [htrace]
  cycle := hcycle

/-- The row that an event leaves open is the same at the same bank. -/
theorem RowAfter.congr {ev : BankEvent} (hs : SameBank b s s') (hc : s.currentList b = some e)
    (h : RowAfter s b e ev) : RowAfter s' b e ev := by
  rw [RowAfter, hs.currentRid, hs.rid e hc]
  exact h

/-- The phase of a bank is the same at the same bank. -/
theorem InPhase.congr (h : InPhase k s b) (hs : SameBank b s s') : InPhase k s' b := by
  obtain ⟨hpaced, hphase⟩ := h
  refine ⟨by rw [hs.trace]; exact hpaced, ?_⟩
  have hcycle := hs.cycle
  cases hphase with
  | idle hc hd hl =>
      refine .idle (hs.currentList.trans hc) (hs.dataReady.trans hd) ?_
      intro p hp
      rw [hs.trace] at hp
      exact ⟨(hl p hp).1, (hl p hp).2.trans hcycle⟩
  | ready e ev t hc hst hd hl ht hrow =>
      exact .ready e ev t (hs.currentList.trans hc) ((hs.state e hc).trans hst)
        (hs.dataReady.trans hd) (by rw [hs.trace, hl]) (ht.trans hcycle)
        (hrow.imp_right fun hrow => hrow.congr hs hc)
  | waiting e ev t hc hst hd hl ht hrow =>
      exact .waiting e ev t (hs.currentList.trans hc) ((hs.state e hc).trans hst)
        (hs.dataReady.trans hd) (by rw [hs.trace, hl]) (hs.bankReady.trans ht)
        (hrow.congr hs hc)
  | column e t hc hst hd hl ht hrow =>
      exact .column e t (hs.currentList.trans hc) ((hs.state e hc).trans hst)
        (hs.dataReady.trans hd) (by rw [hs.trace, hl]) (hs.dataAvail.trans ht)
        (by rw [hs.currentRid, hs.rid e hc, hrow])
  | data e t hc hst hl ht hrow =>
      exact .data e t (hs.currentList.trans hc) ((hs.state e hc).trans hst)
        (by rw [hs.trace, hl]) (ht.trans hcycle) (by rw [hs.currentRid, hs.rid e hc, hrow])

/-! ## Moves at a bank -/

/-- Only bank `b` and its entry `e` were touched. -/
structure OnlyBank (b : ℕ) (e : DrbId) (s s' : DramCtrl) : Prop where
  entry : ∀ i, i ≠ e → s'.entry i = s.entry i
  currentList : ∀ c, c ≠ b → s'.currentList c = s.currentList c
  currentRid : ∀ c, c ≠ b → s'.currentRid c = s.currentRid c
  bankReady : ∀ c, c ≠ b → s'.bankReady c = s.bankReady c
  dataReady : ∀ c, c ≠ b → s'.dataReady c = s.dataReady c
  dataAvail : ∀ c, c ≠ b → s'.dataAvail c = s.dataAvail c
  trace : ∀ c, c ≠ b → s'.trace c = s.trace c
  cycle : s'.cycle = s.cycle

/-- The other banks are in the same phase. -/
theorem OnlyBank.sameBank (hT : Tidy k s) (he : e ∈ inUse s b) (hs : OnlyBank b e s s')
    (hc : c ≠ b) : SameBank c s s' := by
  have hentry (i : DrbId) (hi : s.currentList c = some i) : s'.entry i = s.entry i :=
    hs.entry i (hT.ne_of_bank_ne he (mem_inUse_of_current hi) hc)
  constructor
  · exact hs.currentList c hc
  · intro i hi
    rw [hentry i hi]
  · intro i hi
    rw [hentry i hi]
  · exact hs.currentRid c hc
  · exact hs.bankReady c hc
  · exact hs.dataReady c hc
  · exact hs.dataAvail c hc
  · exact hs.trace c hc
  · exact hs.cycle.ge

/-- A selection touches one bank and one entry only. -/
theorem onlyBank_selectEntry (s : DramCtrl) (b : ℕ) (e : DrbId) (buffer : List DrbId) :
    OnlyBank b e s (s.selectEntry b e buffer) := by
  constructor
  case entry => exact fun i hi => Function.update_of_ne hi _ _
  case currentList => exact fun c hc => Function.update_of_ne hc _ _
  case bankReady => exact fun c hc => Function.update_of_ne hc _ _
  case trace => exact fun c hc => Function.update_of_ne hc _ _
  all_goals intros; rfl

/-- Waking an entry touches one bank and one entry only. -/
theorem onlyBank_wakeEntry (s : DramCtrl) (b : ℕ) (e : DrbId) :
    OnlyBank b e s (wakeEntry s b e) := by
  constructor
  case entry => exact fun i hi => Function.update_of_ne hi _ _
  case bankReady => exact fun c hc => Function.update_of_ne hc _ _
  all_goals intros; rfl

/-- A command touches one bank and one entry only. -/
theorem onlyBank_issueCommand (s : DramCtrl) (b : ℕ) (e : DrbId) :
    OnlyBank b e s (s.issueCommand k b e) := by
  unfold DramCtrl.issueCommand
  dsimp only
  split
  · constructor
    case entry => exact fun i hi => Function.update_of_ne hi _ _
    case currentRid => exact fun c hc => Function.update_of_ne hc _ _
    case bankReady => exact fun c hc => Function.update_of_ne hc _ _
    case dataAvail => exact fun c hc => Function.update_of_ne hc _ _
    case trace => exact fun c hc => Function.update_of_ne hc _ _
    all_goals intros; rfl
  · split
    · constructor
      case entry => exact fun i hi => Function.update_of_ne hi _ _
      case bankReady => exact fun c hc => Function.update_of_ne hc _ _
      case dataAvail => exact fun c hc => Function.update_of_ne hc _ _
      case trace => exact fun c hc => Function.update_of_ne hc _ _
      all_goals intros; rfl
    · constructor
      case entry => exact fun i hi => Function.update_of_ne hi _ _
      case currentRid => exact fun c hc => Function.update_of_ne hc _ _
      case bankReady => exact fun c hc => Function.update_of_ne hc _ _
      case dataAvail => exact fun c hc => Function.update_of_ne hc _ _
      case trace => exact fun c hc => Function.update_of_ne hc _ _
      all_goals intros; rfl

/-- What a transfer does to its bank, whenever the bus is free again. -/
theorem transfer_bank (s : DramCtrl) (ii b : ℕ) (e : DrbId) : ∃ ready,
    (s.transfer k ii b e).entry =
      Function.update s.entry e { s.entry e with state := .dataWait } ∧
    (s.transfer k ii b e).dataReady = Function.update s.dataReady b (some ready) ∧
    (s.transfer k ii b e).dataAvail = Function.update s.dataAvail b none ∧
    (s.transfer k ii b e).trace =
      Function.update s.trace b (s.trace b ++ [(.data, s.cycle)]) ∧
    (s.transfer k ii b e).currentList = s.currentList ∧
    (s.transfer k ii b e).currentRid = s.currentRid ∧
    (s.transfer k ii b e).bankReady = s.bankReady ∧
    (s.transfer k ii b e).cycle = s.cycle := by
  unfold DramCtrl.transfer DramCtrl.acquireDataBus
  dsimp only
  split
  · exact ⟨_, rfl, rfl, rfl, rfl, rfl, rfl, rfl, rfl⟩
  · exact ⟨_, rfl, rfl, rfl, rfl, rfl, rfl, rfl, rfl⟩

/-- A transfer touches one bank and one entry only. -/
theorem onlyBank_transfer (s : DramCtrl) (ii b : ℕ) (e : DrbId) :
    OnlyBank b e s (s.transfer k ii b e) := by
  obtain ⟨ready, hentry, hdata, havail, htrace, hcur, hrid, hbank, hcycle⟩ :=
    transfer_bank (k := k) s ii b e
  constructor
  · intro i hi
    rw [hentry, Function.update_of_ne hi]
  · intro c _
    rw [hcur]
  · intro c _
    rw [hrid]
  · intro c _
    rw [hbank]
  · intro c hc
    rw [hdata, Function.update_of_ne hc]
  · intro c hc
    rw [havail, Function.update_of_ne hc]
  · intro c hc
    rw [htrace, Function.update_of_ne hc]
  · exact hcycle

/-- Finishing an entry touches one bank and one entry only. -/
theorem onlyBank_finishEntry (s : DramCtrl) (b : ℕ) (e : DrbId) (finish r : ℕ) :
    OnlyBank b e s (finishEntry k s b e finish r) := by
  have hret := sameBanks_retire (k := k) s finish r
  constructor
  · intro i hi
    rw [← hret.entry]
    exact Function.update_of_ne hi _ _
  · intro c hc
    rw [← hret.currentList]
    exact Function.update_of_ne hc _ _
  · intro c _
    rw [← hret.currentRid]
    rfl
  · intro c _
    rw [← hret.bankReady]
    rfl
  · intro c hc
    rw [← hret.dataReady]
    exact Function.update_of_ne hc _ _
  · intro c _
    rw [← hret.dataAvail]
    rfl
  · intro c hc
    rw [← hret.trace]
    exact Function.update_of_ne hc _ _
  · rw [← hret.cycle]
    rfl

/-! ## Phase changes -/

/-- A selection leaves its bank in phase. -/
theorem inPhase_selectEntry (h : InPhase k s b) (hc : s.currentList b = none)
    (buffer : List DrbId) : InPhase k (s.selectEntry b e buffer) b := by
  have htrace : (s.selectEntry b e buffer).trace b = s.trace b ++ [(.select, s.cycle)] :=
    Function.update_self _ _ _
  cases h.2 with
  | idle _ hd hl =>
      refine ⟨?_, ?_⟩
      · rw [htrace]
        exact h.1.select hl
      · refine .ready e .select s.cycle (Function.update_self _ _ _) ?_ hd ?_ le_rfl (.inl rfl)
        · show (Function.update s.entry e _ e).state = _
          rw [Function.update_self]
        · rw [htrace, List.getLast?_concat]
  | ready _ _ _ hc' | waiting _ _ _ hc' | column _ _ hc' | data _ _ hc' =>
      rw [hc] at hc'
      exact (nomatch hc')

/-- The phase of a bank whose entry is in a given state. -/
theorem Phase.of_state (h : Phase k s b) (hc : s.currentList b = some e) :
    ((s.entry e).state = .cmd ∧ s.dataReady b = none ∧ ∃ ev t,
      (s.trace b).getLast? = some (ev, t) ∧ t + busyFor k ev ≤ s.cycle ∧
      (ev = .select ∨ RowAfter s b e ev)) ∨
    ((s.entry e).state = .cmdWait ∧ s.dataReady b = none ∧ ∃ ev t,
      (s.trace b).getLast? = some (ev, t) ∧ s.bankReady b = some (t + busyFor k ev) ∧
      RowAfter s b e ev) ∨
    ((s.entry e).state = .data ∧ s.dataReady b = none ∧ s.currentRid b = (s.entry e).rid ∧ ∃ t,
      (s.trace b).getLast? = some (.column, t) ∧ s.dataAvail b = some (t + k.column)) ∨
    ((s.entry e).state = .dataWait ∧ s.currentRid b = (s.entry e).rid ∧ ∃ t,
      (s.trace b).getLast? = some (.data, t) ∧ t ≤ s.cycle) := by
  cases h with
  | idle hc' =>
      rw [hc] at hc'
      exact (nomatch hc')
  | ready e' ev t hc' hst hd hl ht hrow =>
      obtain rfl := Option.some_inj.mp (hc.symm.trans hc')
      exact .inl ⟨hst, hd, ev, t, hl, ht, hrow⟩
  | waiting e' ev t hc' hst hd hl ht hrow =>
      obtain rfl := Option.some_inj.mp (hc.symm.trans hc')
      exact .inr (.inl ⟨hst, hd, ev, t, hl, ht, hrow⟩)
  | column e' t hc' hst hd hl ht hrow =>
      obtain rfl := Option.some_inj.mp (hc.symm.trans hc')
      exact .inr (.inr (.inl ⟨hst, hd, hrow, t, hl, ht⟩))
  | data e' t hc' hst hl ht hrow =>
      obtain rfl := Option.some_inj.mp (hc.symm.trans hc')
      exact .inr (.inr (.inr ⟨hst, hrow, t, hl, ht⟩))

/-- Waking the current entry leaves its bank in phase. -/
theorem inPhase_wakeEntry (h : InPhase k s b) (hc : s.currentList b = some e)
    (hst : (s.entry e).state = .cmdWait) (hr : s.reached (s.bankReady b) = true) :
    InPhase k (wakeEntry s b e) b := by
  refine ⟨h.1, ?_⟩
  obtain ⟨hst', -⟩ | ⟨-, hd, ev, t, hl, ht, hrow⟩ | ⟨hst', -⟩ | ⟨hst', -⟩ := h.2.of_state hc
  · exact (nomatch hst.symm.trans hst')
  · have hnow : t + busyFor k ev ≤ s.cycle := by
      rw [DramCtrl.reached, ht] at hr
      simpa using hr
    have hrid : ((wakeEntry s b e).entry e).rid = (s.entry e).rid :=
      (sameTraffic_wakeEntry s b e).rid e
    refine .ready e ev t hc ?_ hd hl hnow (.inr ?_)
    · show (Function.update s.entry e _ e).state = _
      rw [Function.update_self]
    · rw [RowAfter, hrid]
      exact hrow
  · exact (nomatch hst.symm.trans hst')
  · exact (nomatch hst.symm.trans hst')

/-- What a command does to its bank: a closed row is opened, an open row of the entry is
accessed, another open row is closed. -/
theorem issueCommand_bank (s : DramCtrl) (b : ℕ) (e : DrbId) :
    (s.issueCommand k b e).dataReady = s.dataReady ∧
    ∃ ev, (s.issueCommand k b e).trace b = s.trace b ++ [(ev, s.cycle)] ∧
      ((ev = .activate ∧ s.currentRid b = BitVec.allOnes 64 ∧
        (s.issueCommand k b e).currentRid b = (s.entry e).rid ∧
        ((s.issueCommand k b e).entry e).state = .cmdWait ∧
        (s.issueCommand k b e).bankReady b = some (s.cycle + k.activate)) ∨
      (ev = .column ∧ s.currentRid b ≠ BitVec.allOnes 64 ∧ s.currentRid b = (s.entry e).rid ∧
        (s.issueCommand k b e).currentRid b = (s.entry e).rid ∧
        ((s.issueCommand k b e).entry e).state = .data ∧
        (s.issueCommand k b e).dataAvail b = some (s.cycle + k.column)) ∨
      (ev = .precharge ∧ s.currentRid b ≠ BitVec.allOnes 64 ∧
        s.currentRid b ≠ (s.entry e).rid ∧
        (s.issueCommand k b e).currentRid b = BitVec.allOnes 64 ∧
        ((s.issueCommand k b e).entry e).state = .cmdWait ∧
        (s.issueCommand k b e).bankReady b = some (s.cycle + k.precharge))) := by
  unfold DramCtrl.issueCommand
  dsimp only
  split
  · rename_i hclosed
    refine ⟨rfl, .activate, Function.update_self _ _ _, .inl ⟨rfl, hclosed, ?_⟩⟩
    simp only [DramCtrl.note, DramCtrl.modifyEntry, Function.update_self, and_self]
  · rename_i hopen
    split
    · rename_i hrow
      refine ⟨rfl, .column, Function.update_self _ _ _, .inr (.inl ⟨rfl, hopen, hrow.symm, ?_⟩)⟩
      simp only [DramCtrl.note, DramCtrl.modifyEntry, Function.update_self, hrow, and_self]
    · rename_i hrow
      refine ⟨rfl, .precharge, Function.update_self _ _ _,
        .inr (.inr ⟨rfl, hopen, fun h => hrow h.symm, ?_⟩)⟩
      simp only [DramCtrl.note, DramCtrl.modifyEntry, Function.update_self, and_self]

/-- The next command of an entry is the one that its service is at. -/
theorem inPhase_issueCommand (h : InPhase k s b) (hc : s.currentList b = some e)
    (hst : (s.entry e).state = .cmd) (hopen : (s.entry e).rid ≠ BitVec.allOnes 64) :
    InPhase k (s.issueCommand k b e) b := by
  obtain ⟨-, hd, ev, t, hl, ht, hrow⟩ | ⟨hst', -⟩ | ⟨hst', -⟩ | ⟨hst', -⟩ := h.2.of_state hc
  · have hrid := (sameTraffic_issueCommand (k := k) s b e).rid e
    have hcur : (s.issueCommand k b e).currentList b = some e := by
      rw [(sameTraffic_issueCommand s b e).currentList, hc]
    obtain ⟨hready, ev', htrace, hcase⟩ := issueCommand_bank (k := k) s b e
    have hd' : (s.issueCommand k b e).dataReady b = none := by rw [hready, hd]
    have hl' : ((s.issueCommand k b e).trace b).getLast? = some (ev', s.cycle) := by
      rw [htrace, List.getLast?_concat]
    have hpaced (hnext : precedes ev ev' = true) : Paced k ((s.issueCommand k b e).trace b) := by
      rw [htrace]
      exact h.1.append hl ⟨hnext, ht⟩
    obtain ⟨rfl, hclosed, hrow', hst', hbank⟩ | ⟨rfl, hne, -, hrow', hst', havail⟩ |
      ⟨rfl, hne, hother, hrow', hst', hbank⟩ := hcase
    · refine ⟨hpaced ?_, .waiting e _ _ hcur hst' hd' hl' hbank (.inr ⟨rfl, hrow'.trans hrid.symm⟩)⟩
      obtain rfl | ⟨rfl, -⟩ | ⟨rfl, hopened⟩ := hrow
      · rfl
      · rfl
      · exact absurd (hopened.symm.trans hclosed) hopen
    · refine ⟨hpaced ?_, .column e _ hcur hst' hd' hl' havail (hrow'.trans hrid.symm)⟩
      obtain rfl | ⟨rfl, hclosed⟩ | ⟨rfl, -⟩ := hrow
      · rfl
      · exact absurd hclosed hne
      · rfl
    · refine ⟨hpaced ?_, .waiting e _ _ hcur hst' hd' hl' hbank (.inl ⟨rfl, hrow'⟩)⟩
      obtain rfl | ⟨rfl, hclosed⟩ | ⟨rfl, hopened⟩ := hrow
      · rfl
      · exact absurd hclosed hne
      · exact absurd hopened hother
  · exact (nomatch hst.symm.trans hst')
  · exact (nomatch hst.symm.trans hst')
  · exact (nomatch hst.symm.trans hst')

/-- The transfer of the current entry leaves its bank in phase. -/
theorem inPhase_transfer (h : InPhase k s b) (hc : s.currentList b = some e)
    (hst : (s.entry e).state = .data) (hr : s.reached (s.dataAvail b) = true) (ii : ℕ) :
    InPhase k (s.transfer k ii b e) b := by
  obtain ⟨hst', -⟩ | ⟨hst', -⟩ | ⟨-, -, hrow, t, hl, ht⟩ | ⟨hst', -⟩ := h.2.of_state hc
  · exact (nomatch hst.symm.trans hst')
  · exact (nomatch hst.symm.trans hst')
  · have hnow : t + k.column ≤ s.cycle := by
      rw [DramCtrl.reached, ht] at hr
      simpa using hr
    obtain ⟨ready, hentry, -, -, htrace, hcur, hcurrent, -, hcycle⟩ :=
      transfer_bank (k := k) s ii b e
    refine ⟨?_, .data e s.cycle ?_ ?_ ?_ hcycle.ge ?_⟩
    · rw [htrace, Function.update_self]
      exact h.1.append hl ⟨rfl, hnow⟩
    · rw [hcur, hc]
    · rw [hentry, Function.update_self]
    · rw [htrace, Function.update_self, List.getLast?_concat]
    · rw [hcurrent, hentry, Function.update_self, hrow]
  · exact (nomatch hst.symm.trans hst')

/-- Finishing the current entry leaves its bank in phase. -/
theorem inPhase_finishEntry (h : InPhase k s b) (hc : s.currentList b = some e)
    (hst : (s.entry e).state = .dataWait) (finish r : ℕ) :
    InPhase k (finishEntry k s b e finish r) b := by
  have hret := sameBanks_retire (k := k) s finish r
  have htrace : (finishEntry k s b e finish r).trace b = s.trace b ++ [(.complete, s.cycle)] := by
    rw [← hret.trace, ← hret.cycle]
    exact Function.update_self _ _ _
  have hcycle : (finishEntry k s b e finish r).cycle = s.cycle := hret.cycle
  obtain ⟨hst', -⟩ | ⟨hst', -⟩ | ⟨hst', -⟩ | ⟨-, -, t, hl, ht⟩ := h.2.of_state hc
  · exact (nomatch hst.symm.trans hst')
  · exact (nomatch hst.symm.trans hst')
  · exact (nomatch hst.symm.trans hst')
  · refine ⟨?_, .idle (Function.update_self _ _ _) (Function.update_self _ _ _) ?_⟩
    · rw [htrace]
      exact h.1.append hl ⟨rfl, ht⟩
    · intro p hp
      rw [htrace, List.getLast?_concat, Option.mem_some_iff] at hp
      rw [← hp, hcycle]
      exact ⟨rfl, le_rfl⟩

/-! ## All runs -/

/-- The entries in use have the row ids of accepted requests, and if none of these is
`ULLONG_MAX`, then every bank is in a phase. -/
structure Timed (k : DramKnobs) (s : DramCtrl) : Prop where
  opened : ∀ b, ∀ e ∈ inUse s b, (s.entry e).rid ∈ s.rows
  phases : BitVec.allOnes 64 ∉ s.rows → ∀ b, InPhase k s b

/-- Every entry in use was in use before, with the same row. -/
theorem opened_shrink (h : ∀ b, ∀ e ∈ inUse s b, (s.entry e).rid ∈ s.rows)
    (huse : ∀ c, ∀ i ∈ inUse s' c, i ∈ inUse s c ∧ (s'.entry i).rid = (s.entry i).rid)
    (hrows : s'.rows = s.rows) : ∀ b, ∀ e ∈ inUse s' b, (s'.entry e).rid ∈ s'.rows := by
  intro c i hi
  obtain ⟨hi, hrid⟩ := huse c i hi
  rw [hrid, hrows]
  exact h c i hi

/-- An entry that is left in bank `b` when `e` leaves its buffer. -/
theorem mem_inUse_of_release (hT : Tidy k s) (he : e ∈ s.buffer b)
    (huse : inUse s' c =
      if c = b then (s.buffer b).filter (· ≠ e) ++ (s.currentList b).toList else inUse s c)
    {i : DrbId} (hi : i ∈ inUse s' c) : i ∈ inUse s c ∧ i ≠ e := by
  rw [huse] at hi
  split at hi
  · rename_i hc
    subst hc
    rcases List.mem_append.mp hi with hi | hi
    · obtain ⟨hi, hne⟩ := List.mem_filter.mp hi
      exact ⟨mem_inUse_of_buffer hi, by simpa using hne⟩
    · have hcur : s.currentList c = some i := by simpa using hi
      refine ⟨mem_inUse_of_current hcur, ?_⟩
      rintro rfl
      exact hT.current_notMem hcur he
  · rename_i hc
    exact ⟨hi, hT.ne_of_bank_ne (mem_inUse_of_buffer he) hi hc⟩

/-- Once its current entry is finished, a bank holds what it held but that entry. -/
theorem mem_inUse_of_finish (hT : Tidy k s) (he : s.currentList b = some e) {finish r : ℕ}
    {i : DrbId} (hi : i ∈ inUse (finishEntry k s b e finish r) c) : i ∈ inUse s c ∧ i ≠ e := by
  rw [inUse_finishEntry] at hi
  split at hi
  · rename_i hc
    subst hc
    refine ⟨mem_inUse_of_buffer hi, ?_⟩
    rintro rfl
    exact hT.current_notMem he hi
  · rename_i hc
    exact ⟨hi, hT.ne_of_bank_ne (mem_inUse_of_current he) hi hc⟩

/-- After a selection a bank holds no more than before. -/
theorem mem_inUse_of_select {buffer : List DrbId} (hp : buffer.Perm (s.buffer b))
    (he : e ∈ buffer) {i : DrbId} (hi : i ∈ inUse (s.selectEntry b e buffer) c) :
    i ∈ inUse s c := by
  rw [inUse_selectEntry] at hi
  split at hi
  · rename_i hc
    subst hc
    rcases List.mem_append.mp hi with hi | hi
    · exact mem_inUse_of_buffer (hp.mem_iff.mp (List.mem_of_mem_filter hi))
    · rw [List.mem_singleton.mp hi]
      exact mem_inUse_of_buffer (hp.mem_iff.mp he)
  · exact hi

/-- An accepted request has its row among those seen, and so have the others. -/
theorem opened_accept {r : ℕ} {rest : List ℕ} {free : List DrbId}
    (h : ∀ b, ∀ e ∈ inUse s b, (s.entry e).rid ∈ s.rows) :
    ∀ b, ∀ i ∈ inUse (acceptReq k s r rest e free) b,
      ((acceptReq k s r rest e free).entry i).rid ∈ (acceptReq k s r rest e free).rows := by
  intro c i hi
  have hrows : (acceptReq k s r rest e free).rows =
      s.rows ++ [(k.map.parseAddr k.bankXorIndex (s.reqs r).addr).rid] := rfl
  rw [hrows]
  by_cases hie : i = e
  · subst hie
    refine List.mem_append_right _ ?_
    show (Function.update s.entry i _ i).rid ∈ _
    rw [Function.update_self]
    exact List.mem_singleton_self _
  · have hin : i ∈ inUse s c := by
      rw [inUse_acceptReq] at hi
      split at hi
      · rename_i hc
        simp only [List.mem_append, List.mem_singleton, hie, or_false] at hi
        exact List.mem_append.mpr hi
      · exact hi
    have hentry : (acceptReq k s r rest e free).entry i = s.entry i :=
      Function.update_of_ne hie _ _
    rw [hentry]
    exact List.mem_append_left _ (h c i hin)

/-- Each move keeps the rows of what the banks hold among those seen. -/
theorem opened_move (hT : Tidy k s) (h : ∀ b, ∀ e ∈ inUse s b, (s.entry e).rid ∈ s.rows)
    (hm : DramMove k s s') : ∀ b, ∀ e ∈ inUse s' b, (s'.entry e).rid ∈ s'.rows := by
  have hsame (hs : SameBanks s s') : ∀ b, ∀ e ∈ inUse s' b, (s'.entry e).rid ∈ s'.rows := by
    rw [inUse_congr hs.buffer hs.currentList, hs.entry, hs.rows]
    exact h
  have htraffic (hs : SameTraffic s s') : ∀ b, ∀ e ∈ inUse s' b, (s'.entry e).rid ∈ s'.rows := by
    refine opened_shrink h (fun c i hi => ⟨?_, hs.rid i⟩) hs.rows
    rw [inUse_congr hs.buffer hs.currentList] at hi
    exact hi
  cases hm with
  | count | tick | arrive | mark => exact h
  | adjust r req => exact hsame (sameBanks_adjustReq s r req)
  | delay => exact h
  | send accepts => exact hsame (sameBanks_send s accepts)
  | wake b e => exact htraffic (sameTraffic_wakeEntry s b e)
  | command b e => exact htraffic (sameTraffic_issueCommand s b e)
  | transfer ii b e => exact htraffic (sameTraffic_transfer s ii b e)
  | accept => exact opened_accept h
  | flush b e r _ he =>
      exact opened_shrink h
        (fun c i hi => ⟨(mem_inUse_of_release hT he (inUse_flushReq c) hi).1, rfl⟩) rfl
  | merge b e finish r _ he =>
      have hret := sameBanks_retire (k := k) s finish r
      refine opened_shrink h (fun c i hi => ?_) hret.rows
      obtain ⟨hin, hne⟩ := mem_inUse_of_release hT he (inUse_merge finish c) hi
      refine ⟨hin, ?_⟩
      show (Function.update (s.retire k finish r).entry e _ i).rid = _
      rw [Function.update_of_ne hne, hret.entry]
  | finish b e finish r _ he =>
      have hret := sameBanks_retire (k := k) s finish r
      refine opened_shrink h (fun c i hi => ?_) hret.rows
      obtain ⟨hin, hne⟩ := mem_inUse_of_finish hT he hi
      refine ⟨hin, ?_⟩
      rw [(onlyBank_finishEntry s b e finish r).entry i hne]
  | select b e buffer _ _ hp he =>
      refine opened_shrink h (fun c i hi => ⟨mem_inUse_of_select hp he hi, ?_⟩) rfl
      show (Function.update s.entry e _ i).rid = _
      refine update_field (·.rid) ?_ i
      rfl

/-- No move forgets a row that was seen. -/
theorem rows_subset (hm : DramMove k s s') : s.rows ⊆ s'.rows := by
  cases hm with
  | count | tick | arrive | mark | flush | select | wake | delay => exact List.Subset.refl _
  | accept => exact List.subset_append_left _ _
  | adjust r req => exact (sameBanks_adjustReq s r req).rows ▸ List.Subset.refl _
  | send accepts => exact (sameBanks_send (k := k) s accepts).rows ▸ List.Subset.refl _
  | merge b e finish r => exact (sameBanks_retire (k := k) s finish r).rows ▸ List.Subset.refl _
  | finish b e finish r => exact (sameBanks_retire (k := k) s finish r).rows ▸ List.Subset.refl _
  | command b e => exact (sameTraffic_issueCommand (k := k) s b e).rows ▸ List.Subset.refl _
  | transfer ii b e => exact (sameTraffic_transfer (k := k) s ii b e).rows ▸ List.Subset.refl _

/-- A move at bank `b` that brings it to its next phase leaves the other banks in theirs. -/
theorem inPhase_onlyBank (hT : Tidy k s) (h : ∀ b, InPhase k s b) (he : e ∈ inUse s b)
    (hs : OnlyBank b e s s') (hself : InPhase k s' b) (c : ℕ) : InPhase k s' c := by
  by_cases hc : c = b
  · rw [hc]
    exact hself
  · exact (h c).congr (hs.sameBank hT he hc)

/-- Each move keeps every bank in phase, as long as no row is the sentinel. -/
theorem inPhase_move (hT : Tidy k s)
    (hopen : ∀ b, ∀ e ∈ inUse s b, (s.entry e).rid ≠ BitVec.allOnes 64)
    (h : ∀ b, InPhase k s b) (hm : DramMove k s s') : ∀ b, InPhase k s' b := by
  have hsame (hs : SameBanks s s') (b : ℕ) : InPhase k s' b := (h b).congr (.of_sameBanks hs)
  cases hm with
  | count | arrive | mark | delay =>
      apply hsame
      constructor <;> rfl
  | tick =>
      intro b
      exact (h b).congr (.of_entry (fun _ _ => rfl) rfl rfl rfl rfl rfl rfl (Nat.le_succ _))
  | adjust r req => exact hsame (sameBanks_adjustReq s r req)
  | send accepts => exact hsame (sameBanks_send s accepts)
  | accept r rest e free _ hfree =>
      intro b
      refine (h b).congr (.of_entry ?_ rfl rfl rfl rfl rfl rfl le_rfl)
      intro i hi
      refine Function.update_of_ne ?_ _ _
      rintro rfl
      exact hT.free_notMem (by rw [hfree]; exact List.mem_cons_self) b (mem_inUse_of_current hi)
  | flush b e r => exact fun c => (h c).congr (.of_entry (fun _ _ => rfl) rfl rfl rfl rfl rfl rfl le_rfl)
  | merge b e finish r _ he =>
      intro c
      have hret := sameBanks_retire (k := k) s finish r
      refine (h c).congr (.of_entry ?_ hret.currentList hret.currentRid hret.bankReady
        hret.dataReady hret.dataAvail hret.trace hret.cycle.ge)
      intro i hi
      have hne : i ≠ e := by
        rintro rfl
        by_cases hc : c = b
        · subst hc
          exact hT.current_notMem hi he
        · exact hT.ne_of_bank_ne (mem_inUse_of_buffer he) (mem_inUse_of_current hi) hc rfl
      show Function.update (s.retire k finish r).entry e _ i = _
      rw [Function.update_of_ne hne, hret.entry]
  | finish b e finish r _ he _ _ _ hst =>
      exact inPhase_onlyBank hT h (mem_inUse_of_current he) (onlyBank_finishEntry s b e finish r)
        (inPhase_finishEntry (h b) he hst finish r)
  | select b e buffer _ hc hp he =>
      exact inPhase_onlyBank hT h (mem_inUse_of_buffer (hp.mem_iff.mp he))
        (onlyBank_selectEntry s b e buffer) (inPhase_selectEntry (h b) hc buffer)
  | wake b e he hst hr =>
      exact inPhase_onlyBank hT h (mem_inUse_of_current he) (onlyBank_wakeEntry s b e)
        (inPhase_wakeEntry (h b) he hst hr)
  | command b e he hst =>
      exact inPhase_onlyBank hT h (mem_inUse_of_current he) (onlyBank_issueCommand s b e)
        (inPhase_issueCommand (h b) he hst (hopen b e (mem_inUse_of_current he)))
  | transfer ii b e he hst hr =>
      exact inPhase_onlyBank hT h (mem_inUse_of_current he) (onlyBank_transfer s ii b e)
        (inPhase_transfer (h b) he hst hr ii)

/-- Each move keeps the timing. -/
theorem Timed.move (hT : Tidy k s) (h : Timed k s) (hm : DramMove k s s') : Timed k s' := by
  refine ⟨opened_move hT h.opened hm, fun hrows => ?_⟩
  have hrows' : BitVec.allOnes 64 ∉ s.rows := fun hmem => hrows (rows_subset hm hmem)
  refine inPhase_move hT ?_ (h.phases hrows') hm
  intro b e he hrid
  exact hrows' (hrid ▸ h.opened b e he)

/-- The timing holds when the controller starts. -/
theorem timed_new (completed starvation : ℤ) (reqs : ℕ → DramReq) :
    Timed k (DramCtrl.new k completed starvation reqs) where
  opened b e he := by simp [inUse, DramCtrl.new] at he
  phases _ b := by
    refine ⟨⟨?_, List.IsChain.nil⟩, .idle rfl rfl ?_⟩
    · intro p hp
      cases hp
    · intro p hp
      cases hp

/-- Every reachable controller is tidy and timed. -/
theorem reachable_timed (h : s.Reachable k) : Tidy k s ∧ Timed k s :=
  reachable_induction timed_new (fun _ _ hT ht hm => ht.move hT hm) h

/-! ## The assertion of `bank_schedule_complete` -/

/-- A bank whose transfer is over is waiting for it. -/
theorem Phase.dataWait (h : Phase k s b) (hc : s.currentList b = some e) {finish : ℕ}
    (hd : s.dataReady b = some finish) : (s.entry e).state = .dataWait := by
  obtain ⟨-, hd', -⟩ | ⟨-, hd', -⟩ | ⟨-, hd', -⟩ | ⟨hst, -⟩ := h.of_state hc
  · exact (nomatch hd.symm.trans hd')
  · exact (nomatch hd.symm.trans hd')
  · exact (nomatch hd.symm.trans hd')
  · exact hst

/-- The merge loop finds a request in every entry. -/
theorem mergeRequests_isSome (hT : Tidy k s) (finish : ℕ) :
    (s.mergeRequests k b e finish).isSome := by
  unfold DramCtrl.mergeRequests
  split
  · have hloop : ((s.sameAddr b e).foldlM (DramCtrl.mergeEntry k finish) s).isSome := by
      refine Ensures.foldlM_isSome (I := fun t : DramCtrl => t.entry = s.entry) _ s rfl ?_
      intro t ht i hi
      constructor
      · rw [DramCtrl.mergeEntry, Option.isSome_map, ht]
        exact hT.named b i (mem_inUse_of_buffer (List.mem_of_mem_filter hi))
      · intro u hu
        obtain ⟨r, -, rfl⟩ := Option.map_eq_some_iff.mp hu
        exact (sameBanks_retire t finish r).entry.trans ht
    obtain ⟨t, ht⟩ := Option.isSome_iff_exists.mp hloop
    simp only [Option.bind_eq_bind]
    rw [ht]
    rfl
  · rfl

/-- The assertion in the completion of a bank holds when the bank is in phase. -/
theorem completeBank_isSome (hT : Tidy k s) (h : InPhase k s b) (hb : b < k.numBank) :
    (s.completeBank k b).isSome := by
  unfold DramCtrl.completeBank
  split
  · rename_i e finish he hd
    split
    · rename_i hf
      rw [if_pos (h.2.dataWait he hd)]
      obtain ⟨t, ht⟩ := Option.isSome_iff_exists.mp
        (mergeRequests_isSome (b := b) (e := e) hT finish)
      obtain ⟨-, -, -, -, hentry⟩ := mergeRequests_moves hT hb hf he t ht
      simp only [Option.bind_eq_bind, ht, Option.bind_some, DramCtrl.completeEntry,
        Option.isSome_map, hentry]
      exact hT.named b e (mem_inUse_of_current he)
    · rfl
  · rfl

/-- Any sequence of moves keeps the controller tidy and timed. -/
theorem Timed.moves (hT : Tidy k s) (h : Timed k s) (hm : DramMoves k s s') :
    Tidy k s' ∧ Timed k s' := by
  induction hm with
  | refl => exact ⟨hT, h⟩
  | tail _ hm ih => exact ⟨ih.1.move hm, ih.2.move ih.1 hm⟩

/-- Releasing entries keeps the rows seen. -/
theorem releaseLoop_rows (l : List DrbId) (s : DramCtrl) :
    (l.foldl (DramCtrl.releaseEntry b) s).rows = s.rows := by
  induction l generalizing s with
  | nil => rfl
  | cons e l ih => exact ih _

/-- Merging requests keeps the rows seen. -/
theorem mergeRequests_rows (s : DramCtrl) (b : ℕ) (e : DrbId) (finish : ℕ) :
    Ensures (s.mergeRequests k b e finish) fun t => t.rows = s.rows := by
  unfold DramCtrl.mergeRequests
  split
  · have hloop : Ensures ((s.sameAddr b e).foldlM (DramCtrl.mergeEntry k finish) s)
        fun t => t.rows = s.rows := by
      refine Ensures.foldlM _ s rfl fun t ht i _ u hu => ?_
      obtain ⟨r, -, rfl⟩ := Option.map_eq_some_iff.mp hu
      exact (sameBanks_retire t finish r).rows.trans ht
    refine hloop.bind fun t ht => Ensures.of_some ?_
    rw [releaseLoop_rows, ht]
  · exact Ensures.of_some rfl

/-- The rows of accepted requests are recorded by `insert_new_req` only. -/
theorem completeBank_rows (s : DramCtrl) (b : ℕ) :
    Ensures (s.completeBank k b) fun t => t.rows = s.rows := by
  unfold DramCtrl.completeBank
  split
  · rename_i e finish _ _
    split
    · split
      · refine (mergeRequests_rows s b e finish).bind fun t ht u hu => ?_
        obtain ⟨r, -, rfl⟩ := Option.map_eq_some_iff.mp hu
        exact (sameBanks_retire t finish r).rows.trans ht
      · exact Ensures.of_none
    · exact Ensures.of_some rfl
  · exact Ensures.of_some rfl

/-- The completion of the banks does not fail while the sentinel is no row seen. -/
theorem bankScheduleComplete_isSome (hT : Tidy k s) (h : Timed k s)
    (hrows : BitVec.allOnes 64 ∉ s.rows) : (s.bankScheduleComplete k).isSome := by
  unfold DramCtrl.bankScheduleComplete
  refine Ensures.foldlM_isSome
    (I := fun t : DramCtrl => Tidy k t ∧ Timed k t ∧ BitVec.allOnes 64 ∉ t.rows) _ _ ?_ ?_
  · have hcount : DramMove k s { s with numCompletedInLastCycle := 0 } :=
      .count s 0 s.starvationCycle
    exact ⟨hT.move hcount, h.move hT hcount, hrows⟩
  · rintro t ⟨hT, h, hrows⟩ b hb
    have hb := List.mem_range.mp hb
    refine ⟨completeBank_isSome hT (h.phases hrows b) hb, ?_⟩
    intro u hu
    obtain ⟨hT', h'⟩ := h.moves hT (completeBank_moves hT hb u hu)
    exact ⟨hT', h', completeBank_rows t b u hu ▸ hrows⟩

/-! ## The result -/

/-- In every run in which no accepted request has the row id `ULLONG_MAX`: an entry in service
is in one of the four states of a service, and the row of its bank is its own once the column
was accessed; the events of every bank are services one after the other, each at least the
latency of its event after the one before; and `bank_schedule_complete` does not fail. -/
theorem bank_state_machine (k : DramKnobs) (s : DramCtrl) (h : s.Reachable k)
    (hrows : BitVec.allOnes 64 ∉ s.rows) :
    (∀ b e, s.currentList b = some e →
      (s.entry e).state ∈ [DramState.cmd, .cmdWait, .data, .dataWait] ∧
      ((s.entry e).state = .data ∨ (s.entry e).state = .dataWait →
        s.currentRid b = (s.entry e).rid) ∧
      ∀ finish, s.dataReady b = some finish → finish ≤ s.cycle →
        (s.entry e).state = .dataWait) ∧
    (∀ b, Paced k (s.trace b)) ∧
    (s.bankScheduleComplete k).isSome := by
  obtain ⟨hT, ht⟩ := reachable_timed h
  refine ⟨?_, fun b => (ht.phases hrows b).1, bankScheduleComplete_isSome hT ht hrows⟩
  intro b e he
  have hphase := (ht.phases hrows b).2
  refine ⟨?_, ?_, fun finish hd _ => hphase.dataWait he hd⟩
  · obtain ⟨hst, -⟩ | ⟨hst, -⟩ | ⟨hst, -⟩ | ⟨hst, -⟩ := hphase.of_state he <;> simp [hst]
  · intro hst
    obtain ⟨hst', -⟩ | ⟨hst', -⟩ | ⟨-, -, hrow, -⟩ | ⟨-, hrow, -⟩ := hphase.of_state he
    · simp [hst'] at hst
    · simp [hst'] at hst
    · exact hrow
    · exact hrow

/-- A run with two requests for different rows of a bank: the second one needs all commands. -/
theorem bank_state_machine_small : ∃ s : DramCtrl, s.Reachable smallDram ∧
    (s.trace 0).map (·.1) = [.select, .activate, .column, .data, .complete,
      .select, .precharge, .activate, .column, .data, .complete] ∧
    Paced smallDram (s.trace 0) := by
  obtain ⟨s, hs, hx⟩ := DramCtrl.reachable_run smallDram
    ([.arrive (lineReq 0 .dfetch false), .arrive (lineReq 8192 .wb false)] ++ dramCycles 30)
    (fun _ => lineReq 0 .dfetch false)
    (fun s => ((s.trace 0).map (·.1), s.rows))
    ([.select, .activate, .column, .data, .complete,
      .select, .precharge, .activate, .column, .data, .complete], [0, 2]) (by decide +kernel)
  obtain ⟨htrace, hrows⟩ := Prod.mk.inj hx
  exact ⟨s, hs, htrace, (bank_state_machine smallDram s hs (by rw [hrows]; decide)).2.1 0⟩

/-- One bank with rows of one byte: a row id is an address. -/
def byteRows : DramKnobs :=
  { smallDram with
    map := { smallMap with dramRowbufferSize := 1, dramNumBanks := 1 }
    banks_pos := by decide
    banks_lt := by decide }

/-- The row `ULLONG_MAX` is open and looks closed, so that its bank is given one activate after
the other and the request is never served. -/
theorem row_reopened : ∃ s : DramCtrl, s.Reachable byteRows ∧ ¬ Paced byteRows (s.trace 0) := by
  obtain ⟨s, hs, hx⟩ := DramCtrl.reachable_run byteRows
    ([.arrive (lineReq (BitVec.allOnes 64) .dfetch false)] ++ dramCycles 7)
    (fun _ => lineReq 0 .dfetch false) (fun s => s.trace 0)
    [(.select, 1), (.activate, 2), (.activate, 6)] (by decide +kernel)
  refine ⟨s, hs, fun hpaced => ?_⟩
  have hchain := hpaced.chain
  rw [hx] at hchain
  simp [Follows, precedes] at hchain

end MacSim.Analysis.Dram
