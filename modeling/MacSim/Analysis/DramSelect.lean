import MacSim.Analysis.DramBooks
import MacSim.Computation.StableSort
import Mathlib.Data.BitVec
import Mathlib.Data.Prod.Lex

/-!
# The selection of a request by FR-FCFS

The comparison of `dc_frfcfs_c` orders the requests of a bank by three keys: prefetches after
demands, requests to the open row first, older requests first.  The id of the open row goes
through an `int` on its way into the comparison, so what counts as the open row there is the row
that the truncated id names.
-/

set_option autoImplicit false

namespace MacSim.Analysis.Dram

open MacSim.Model MacSim.Computation

variable {k : DramKnobs} {s s' : DramCtrl} {b : ℕ} {e : DrbId}

/-! ## What the entries of a buffer hold -/

/-- The row of the address of an entry. -/
def rowOf (k : DramKnobs) (s : DramCtrl) (e : DrbId) : BitVec 64 :=
  (k.map.parseAddr k.bankXorIndex (s.entry e).addr).rid

/-- An entry of the buffer of bank `b` has the bank and the row of its address. -/
structure Filed (k : DramKnobs) (s : DramCtrl) (b : ℕ) (e : DrbId) : Prop where
  bid : (s.entry e).bid.toNat = b
  rid : (s.entry e).rid = rowOf k s e

instance (k : DramKnobs) (s : DramCtrl) (b : ℕ) (e : DrbId) : Decidable (Filed k s b e) :=
  decidable_of_iff ((s.entry e).bid.toNat = b ∧ (s.entry e).rid = rowOf k s e)
    ⟨fun h => ⟨h.1, h.2⟩, fun h => ⟨h.bid, h.rid⟩⟩

/-- The entry is the same as far as its place goes. -/
theorem Filed.of_entry (h : Filed k s b e)
    (hbid : (s'.entry e).bid = (s.entry e).bid) (hrid : (s'.entry e).rid = (s.entry e).rid)
    (haddr : (s'.entry e).addr = (s.entry e).addr) : Filed k s' b e := by
  refine ⟨by rw [hbid]; exact h.bid, ?_⟩
  unfold rowOf
  rw [hrid, haddr]
  exact h.rid

/-- A request that no demand waits for. -/
def isPref (s : DramCtrl) (e : DrbId) : Bool := s.entryType e = some .dprf

section RowKey

variable {α ρ : Type} [DecidableEq ρ] {row : α → ρ} {time : α → ℕ} {l : List α} {w w' : ρ}

/-- Elements of the row `w` first, and earlier ones first. -/
def rowKey (row : α → ρ) (time : α → ℕ) (w : ρ) (e : α) : Bool ×ₗ ℕ :=
  toLex (decide (row e ≠ w), time e)

/-- A key is at most another exactly when the row is hit where the other's is not, or both or
neither hit and the request is as old. -/
theorem rowKey_le_iff (e a : α) : rowKey row time w e ≤ rowKey row time w a ↔
    (row e = w ∧ row a ≠ w) ∨ ((row e = w ↔ row a = w) ∧ time e ≤ time a) := by
  unfold rowKey
  rw [Prod.Lex.toLex_le_toLex]
  by_cases he : row e = w <;> by_cases ha : row a = w <;> simp [he, ha]

/-- The row `w'` is taken for the row `w`, and the choice is as it should be: no element is of
the row `w'`, and the first of the earliest elements is of the row `w` unless none is; or no
element is of the row `w`, and one of the row `w'` is the earliest. -/
def ChosenAnyway (row : α → ρ) (time : α → ℕ) (w w' : ρ) (l : List α) : Prop :=
  (∀ e ∈ l, row e ≠ w') ∧ ((∀ e ∈ l, row e ≠ w) ∨ ∃ e ∈ firstMin time l, row e = w) ∨
  (∀ e ∈ l, row e ≠ w) ∧ ∃ e ∈ l, row e = w' ∧ ∀ a ∈ l, time e ≤ time a

/-- Without elements of the row the time alone decides. -/
theorem firstMin_rowKey (h : ∀ e ∈ l, row e ≠ w) :
    firstMin (rowKey row time w) l = firstMin time l := by
  unfold firstMin
  refine List.find?_congr fun e he => ?_
  rw [Bool.eq_iff_iff, List.all_eq_true, List.all_eq_true]
  refine forall₂_congr fun a ha => ?_
  rw [decide_eq_true_iff, decide_eq_true_iff, rowKey_le_iff]
  simp [h e he, h a ha]

/-- The entry found for one row is the best for another exactly when the rows agree or the
difference does not show. -/
theorem chosen_iff {e : α} (he : firstMin (rowKey row time w') l = some e) :
    (∀ a ∈ l, rowKey row time w e ≤ rowKey row time w a) ↔
      w' = w ∨ ChosenAnyway row time w w' l := by
  obtain ⟨hmem, hmin⟩ := firstMin_eq_some he
  by_cases hww : w' = w
  · subst hww
    exact iff_of_true hmin (Or.inl rfl)
  rw [or_iff_right hww]
  by_cases hother : ∀ a ∈ l, row a ≠ w'
  · -- only the time decided
    rw [firstMin_rowKey hother] at he
    have hearliest := (firstMin_eq_some he).2
    constructor
    · intro hright
      refine Or.inl ⟨hother, ?_⟩
      by_cases hrow : row e = w
      · exact Or.inr ⟨e, he, hrow⟩
      · refine Or.inl fun a ha hra => ?_
        rcases (rowKey_le_iff e a).mp (hright a ha) with ⟨hre, -⟩ | ⟨hiff, -⟩
        · exact hrow hre
        · exact hrow (hiff.mpr hra)
    · rintro (⟨-, hnone | ⟨e', he', hrow⟩⟩ | ⟨-, f, hf, hrow, -⟩)
      · intro a ha
        rw [rowKey_le_iff]
        exact Or.inr ⟨iff_of_false (hnone e hmem) (hnone a ha), hearliest a ha⟩
      · obtain rfl : e = e' := Option.some.inj (he.symm.trans he')
        intro a ha
        rw [rowKey_le_iff]
        by_cases hra : row a = w
        · exact Or.inr ⟨iff_of_true hrow hra, hearliest a ha⟩
        · exact Or.inl ⟨hrow, hra⟩
      · exact absurd hrow (hother f hf)
  · -- an element of the row that was taken for `w` was chosen
    push Not at hother
    obtain ⟨f, hf, hfrow⟩ := hother
    have hrow : row e = w' := by
      rcases (rowKey_le_iff e f).mp (hmin f hf) with ⟨hre, -⟩ | ⟨hiff, -⟩
      · exact hre
      · exact hiff.mpr hfrow
    have hnot : row e ≠ w := by rw [hrow]; exact hww
    constructor
    · intro hright
      refine Or.inr ⟨fun a ha hra => ?_, e, hmem, hrow, fun a ha => ?_⟩
      · rcases (rowKey_le_iff e a).mp (hright a ha) with ⟨hre, -⟩ | ⟨hiff, -⟩
        · exact hnot hre
        · exact hnot (hiff.mpr hra)
      · rcases (rowKey_le_iff e a).mp (hright a ha) with ⟨hre, -⟩ | ⟨-, hle⟩
        · exact absurd hre hnot
        · exact hle
    · rintro (⟨hnone, -⟩ | ⟨hnone, g, hg, hgrow, hfirst⟩)
      · exact absurd hfrow (hnone f hf)
      · intro a ha
        rw [rowKey_le_iff]
        have hle : time e ≤ time g := by
          rcases (rowKey_le_iff e g).mp (hmin g hg) with ⟨-, hne⟩ | ⟨-, hle⟩
          · exact absurd hgrow hne
          · exact hle
        exact Or.inr ⟨iff_of_false hnot (hnone a ha), hle.trans (hfirst a ha)⟩

end RowKey

/-! ## The comparison -/

/-- The key of an entry, with the row `w` taken for the open one. -/
def selectKey (k : DramKnobs) (s : DramCtrl) (w : BitVec 64) (e : DrbId) : Bool ×ₗ Bool ×ₗ ℕ :=
  toLex (isPref s e, rowKey (rowOf k s) (fun e => (s.entry e).timestamp) w e)

/-- The comparison of two entries of a bank is that of their keys. -/
theorem sortFunc_eq {a : DrbId} (he : Filed k s b e) (ha : Filed k s b a) :
    s.sortFunc e a = decide (selectKey k s (DramCtrl.asInt (s.currentRid b)) e <
      selectKey k s (DramCtrl.asInt (s.currentRid b)) a) := by
  rw [Bool.eq_iff_iff, decide_eq_true_iff]
  unfold selectKey rowKey
  rw [Prod.Lex.toLex_lt_toLex, Prod.Lex.toLex_lt_toLex]
  unfold DramCtrl.sortFunc isPref
  rw [he.bid, he.rid, ha.rid]
  by_cases hpe : s.entryType e = some .dprf <;> by_cases hpa : s.entryType a = some .dprf <;>
    by_cases hre : rowOf k s e = DramCtrl.asInt (s.currentRid b) <;>
    by_cases hra : rowOf k s a = DramCtrl.asInt (s.currentRid b) <;>
    simp [hpe, hpa, hre, hra]

/-- The requests of bank `b` of which one is chosen: the demands, or all when there is none. -/
def candidates (s : DramCtrl) (b : ℕ) : List DrbId :=
  (s.buffer b).filter fun e => isPref s e == (s.buffer b).all (isPref s)

/-- The smallest keys are those of candidates. -/
theorem selectKey_min_iff {w : BitVec 64} (he : e ∈ s.buffer b) :
    (∀ a ∈ s.buffer b, selectKey k s w e ≤ selectKey k s w a) ↔
      (isPref s e == (s.buffer b).all (isPref s)) = true ∧
        ∀ a ∈ s.buffer b, (isPref s a == (s.buffer b).all (isPref s)) = true →
          rowKey (rowOf k s) (fun e => (s.entry e).timestamp) w e ≤
            rowKey (rowOf k s) (fun e => (s.entry e).timestamp) w a := by
  have hle : ∀ a, selectKey k s w e ≤ selectKey k s w a ↔ isPref s e < isPref s a ∨
      isPref s e = isPref s a ∧ rowKey (rowOf k s) (fun e => (s.entry e).timestamp) w e ≤
        rowKey (rowOf k s) (fun e => (s.entry e).timestamp) w a :=
    fun a => Prod.Lex.toLex_le_toLex
  simp only [hle, beq_iff_eq]
  cases hall : (s.buffer b).all (isPref s) with
  | true =>
    have hpref := List.all_eq_true.mp hall
    rw [hpref e he]
    refine ⟨fun h => ⟨rfl, fun a ha _ => ?_⟩, fun h a ha => Or.inr ⟨?_, h.2 a ha (hpref a ha)⟩⟩
    · have hor := h a ha
      rw [hpref a ha] at hor
      exact (hor.resolve_left (lt_irrefl _)).2
    · exact (hpref a ha).symm
  | false =>
    obtain ⟨d, hd, hdemand⟩ := List.all_eq_false.mp hall
    rw [Bool.not_eq_true] at hdemand
    constructor
    · intro h
      have hfalse : isPref s e = false := by
        rcases h d hd with hlt | ⟨heq, -⟩
        · rw [hdemand] at hlt
          exact absurd hlt (Bool.false_le _).not_gt
        · rw [heq, hdemand]
      refine ⟨hfalse, fun a ha hpa => ?_⟩
      have hor := h a ha
      rw [hfalse, hpa] at hor
      exact (hor.resolve_left (lt_irrefl _)).2
    · rintro ⟨hfalse, h⟩ a ha
      cases hpa : isPref s a with
      | false => exact Or.inr ⟨hfalse, h a ha hpa⟩
      | true => exact Or.inl (by rw [hfalse]; exact Bool.false_lt_true)

/-- The front of the buffer as the sort leaves it. -/
theorem schedule_head (hpolicy : k.policy = .frfcfs) (hnodup : (s.buffer b).Nodup)
    (hfiled : ∀ e ∈ s.buffer b, Filed k s b e) :
    (s.schedule k (s.buffer b)).head? =
      firstMin (rowKey (rowOf k s) (fun e => (s.entry e).timestamp)
        (DramCtrl.asInt (s.currentRid b))) (candidates s b) := by
  unfold DramCtrl.schedule candidates
  rw [hpolicy]
  dsimp only
  rw [firstMin_filter fun e he => selectKey_min_iff (k := k) he]
  refine head?_mergeSort hnodup fun e he a ha => ?_
  rw [sortFunc_eq (hfiled a ha) (hfiled e he), Bool.eq_iff_iff, Bool.not_eq_true',
    decide_eq_false_iff_not, decide_eq_true_iff, not_lt]

/-! ## Entries are filed by their address -/

/-- What is left in the buffers was there before, and its place is the same. -/
structure KeepsFiled (s s' : DramCtrl) : Prop where
  buffer : ∀ b, ∀ e ∈ s'.buffer b, e ∈ s.buffer b
  bid : ∀ b, ∀ e ∈ s'.buffer b, (s'.entry e).bid = (s.entry e).bid
  rid : ∀ b, ∀ e ∈ s'.buffer b, (s'.entry e).rid = (s.entry e).rid
  addr : ∀ b, ∀ e ∈ s'.buffer b, (s'.entry e).addr = (s.entry e).addr

/-- A step that changes neither buffers nor entries keeps what is filed. -/
theorem KeepsFiled.of_same (hbuffer : s'.buffer = s.buffer) (hentry : s'.entry = s.entry) :
    KeepsFiled s s' := by
  refine ⟨fun b e he => hbuffer ▸ he, ?_, ?_, ?_⟩ <;> intro b e _ <;> rw [hentry]

/-- One entry is written, but not where its place is. -/
theorem KeepsFiled.of_update {x : DrbEntry} (hbuffer : ∀ b, ∀ a ∈ s'.buffer b, a ∈ s.buffer b)
    (hentry : s'.entry = Function.update s.entry e x) (hbid : x.bid = (s.entry e).bid)
    (hrid : x.rid = (s.entry e).rid) (haddr : x.addr = (s.entry e).addr) : KeepsFiled s s' := by
  refine ⟨hbuffer, ?_, ?_, ?_⟩ <;> intro b a _ <;> rw [hentry]
  · exact update_field (·.bid) hbid a
  · exact update_field (·.rid) hrid a
  · exact update_field (·.addr) haddr a

/-- An entry that is written is in no buffer afterwards. -/
theorem KeepsFiled.of_gone {x : DrbEntry} (hbuffer : ∀ b, ∀ a ∈ s'.buffer b, a ∈ s.buffer b)
    (hentry : s'.entry = Function.update s.entry e x) (hgone : ∀ b, e ∉ s'.buffer b) :
    KeepsFiled s s' := by
  have hsame : ∀ b, ∀ a ∈ s'.buffer b, s'.entry a = s.entry a := by
    intro b a ha
    rw [hentry, Function.update_of_ne]
    rintro rfl
    exact hgone b ha
  refine ⟨hbuffer, ?_, ?_, ?_⟩ <;> intro b a ha <;> rw [hsame b a ha]

/-- A buffer that only lost entries held those it has. -/
theorem mem_filter_update {f : ℕ → List DrbId} {l : List DrbId} {a : DrbId} {c : ℕ}
    (hl : ∀ a ∈ l, a ∈ f b) (ha : a ∈ Function.update f b l c) : a ∈ f c := by
  rw [Function.update_apply] at ha
  split at ha
  case isTrue heq =>
    rw [heq]
    exact hl a ha
  case isFalse => exact ha

/-- Each move keeps every buffered entry filed under its own bank. -/
theorem filed_move (hT : Tidy k s) (h : ∀ b, ∀ e ∈ s.buffer b, Filed k s b e)
    (hm : DramMove k s s') : ∀ b, ∀ e ∈ s'.buffer b, Filed k s' b e := by
  have hkept : KeepsFiled s s' → ∀ b, ∀ e ∈ s'.buffer b, Filed k s' b e := fun hk b e he =>
    (h b e (hk.buffer b e he)).of_entry (hk.bid b e he) (hk.rid b e he) (hk.addr b e he)
  cases hm with
  | count => exact hkept (.of_same rfl rfl)
  | tick => exact hkept (.of_same rfl rfl)
  | arrive => exact hkept (.of_same rfl rfl)
  | adjust r req =>
    have hsame := sameBanks_adjustReq s r req
    exact hkept (.of_same hsame.buffer hsame.entry)
  | accept r rest e free hin hfree =>
    intro b a ha
    have hfreeEntry : e ∈ s.bufferFreeList
        (k.map.parseAddr k.bankXorIndex (s.reqs r).addr).bid.toNat := by
      rw [hfree]
      exact List.mem_cons_self ..
    have hentry : (acceptReq k s r rest e free).entry = Function.update s.entry e
        { (s.entry e).set r (s.reqs r) (k.map.parseAddr k.bankXorIndex (s.reqs r).addr) with
          timestamp := s.cycle } := rfl
    have hold : a ∈ s.buffer b → Filed k (acceptReq k s r rest e free) b a := by
      intro hmem
      have hne : a ≠ e := by
        rintro rfl
        exact hT.free_notMem hfreeEntry b (mem_inUse_of_buffer hmem)
      refine (h b a hmem).of_entry ?_ ?_ ?_ <;> rw [hentry, Function.update_of_ne hne]
    change a ∈ Function.update s.buffer _ _ b at ha
    rw [Function.update_apply] at ha
    split at ha
    case isTrue hb =>
      rcases List.mem_append.mp ha with hmem | hnew
      · exact hold (hb ▸ hmem)
      · obtain rfl := List.mem_singleton.mp hnew
        constructor
        · rw [hentry, Function.update_self, hb]
          rfl
        · unfold rowOf
          rw [hentry, Function.update_self]
          rfl
    case isFalse => exact hold ha
  | flush b e r hb he =>
    refine hkept ⟨fun c a ha => ?_, fun _ _ _ => rfl, fun _ _ _ => rfl, fun _ _ _ => rfl⟩
    exact mem_filter_update (fun x hx => List.mem_of_mem_filter hx) ha
  | merge b e finish r hb he =>
    have hsame := sameBanks_retire (k := k) s finish r
    have hbuffer : ((s.retire k finish r).releaseEntry b e).buffer =
        Function.update s.buffer b ((s.buffer b).filter (· ≠ e)) := by
      rw [← hsame.buffer]
      rfl
    refine hkept (.of_gone (e := e) (x := DrbEntry.reset) (fun c a ha => ?_) ?_ fun c hc => ?_)
    · rw [hbuffer] at ha
      exact mem_filter_update (fun x hx => List.mem_of_mem_filter hx) ha
    · rw [← hsame.entry]
      rfl
    · rw [hbuffer, Function.update_apply] at hc
      split at hc
      case isTrue => simpa using List.of_mem_filter hc
      case isFalse hne =>
        exact hT.ne_of_bank_ne (mem_inUse_of_buffer he) (mem_inUse_of_buffer hc) hne rfl
  | finish b e finish r hb he =>
    have hsame := sameBanks_retire (k := k) s finish r
    have hbuffer : (finishEntry k s b e finish r).buffer = s.buffer := hsame.buffer
    refine hkept (.of_gone (e := e) (x := DrbEntry.reset) (fun c a ha => hbuffer ▸ ha) ?_
      fun c hc => ?_)
    · rw [← hsame.entry]
      rfl
    · rw [hbuffer] at hc
      by_cases hbc : c = b
      · exact hT.current_notMem he (hbc ▸ hc)
      · exact hT.ne_of_bank_ne (mem_inUse_of_current he) (mem_inUse_of_buffer hc) hbc rfl
  | select b e buffer hb hc hp =>
    refine hkept (.of_update (e := e) (fun c a ha => ?_) rfl rfl rfl rfl)
    exact mem_filter_update (fun x hx => hp.mem_iff.mp (List.mem_of_mem_filter hx)) ha
  | wake b e => exact hkept (.of_update (e := e) (fun _ _ ha => ha) rfl rfl rfl rfl)
  | mark => exact hkept (.of_same rfl rfl)
  | command b e =>
    refine hkept ?_
    unfold DramCtrl.issueCommand
    split
    · exact .of_update (e := e) (fun _ _ ha => ha) rfl rfl rfl rfl
    · split <;> exact .of_update (e := e) (fun _ _ ha => ha) rfl rfl rfl rfl
  | transfer ii b e =>
    refine hkept ?_
    unfold DramCtrl.transfer DramCtrl.acquireDataBus
    dsimp only
    split <;> exact .of_update (e := e) (fun _ _ ha => ha) rfl rfl rfl rfl
  | delay => exact hkept (.of_same rfl rfl)
  | send accepts =>
    have hsame := sameBanks_send (k := k) s accepts
    exact hkept (.of_same hsame.buffer hsame.entry)

/-- In every run, the entries of a buffer are there once, with the bank and the row of their
addresses. -/
theorem filed_of_reachable (h : s.Reachable k) (b : ℕ) :
    (s.buffer b).Nodup ∧ ∀ e ∈ s.buffer b, Filed k s b e := by
  obtain ⟨hT, hfiled⟩ := reachable_induction
    (fun _ _ _ _ e he => absurd he List.not_mem_nil)
    (fun _ _ hT hI hm => filed_move hT hI hm) h
  exact ⟨hT.nodup_buffer b, hfiled b⟩

/-! ## First ready, first come -/

/-- The choice of FR-FCFS at bank `b`: a demand if there is one, of its kind a request to the
open row if there is one, and of those the oldest. -/
structure FirstReady (k : DramKnobs) (s : DramCtrl) (b : ℕ) (e : DrbId) : Prop where
  mem : e ∈ s.buffer b
  demand : (∃ a ∈ s.buffer b, isPref s a = false) → isPref s e = false
  row : (∃ a ∈ s.buffer b, isPref s a = isPref s e ∧ rowOf k s a = s.currentRid b) →
    rowOf k s e = s.currentRid b
  oldest : ∀ a ∈ s.buffer b, isPref s a = isPref s e →
    (rowOf k s a = s.currentRid b ↔ rowOf k s e = s.currentRid b) →
    (s.entry e).timestamp ≤ (s.entry a).timestamp

/-- An entry is first ready exactly when it is a candidate with the least key. -/
theorem firstReady_iff : FirstReady k s b e ↔ e ∈ candidates s b ∧ ∀ a ∈ candidates s b,
    rowKey (rowOf k s) (fun e => (s.entry e).timestamp) (s.currentRid b) e ≤
      rowKey (rowOf k s) (fun e => (s.entry e).timestamp) (s.currentRid b) a := by
  have hmem : ∀ a, a ∈ candidates s b ↔
      a ∈ s.buffer b ∧ isPref s a = (s.buffer b).all (isPref s) := by
    intro a
    rw [candidates, List.mem_filter, beq_iff_eq]
  constructor
  · intro h
    have hclass : isPref s e = (s.buffer b).all (isPref s) := by
      cases hall : (s.buffer b).all (isPref s) with
      | true => exact List.all_eq_true.mp hall e h.mem
      | false =>
        obtain ⟨d, hd, hdemand⟩ := List.all_eq_false.mp hall
        exact h.demand ⟨d, hd, by simpa using hdemand⟩
    refine ⟨(hmem e).mpr ⟨h.mem, hclass⟩, fun a ha => ?_⟩
    obtain ⟨ha, hsame⟩ := (hmem a).mp ha
    rw [← hclass] at hsame
    rw [rowKey_le_iff]
    by_cases hre : rowOf k s e = s.currentRid b
    · by_cases hra : rowOf k s a = s.currentRid b
      · have hiff := iff_of_true hra hre
        exact Or.inr ⟨hiff.symm, h.oldest a ha hsame hiff⟩
      · exact Or.inl ⟨hre, hra⟩
    · have hra : rowOf k s a ≠ s.currentRid b := fun hra => hre (h.row ⟨a, ha, hsame, hra⟩)
      have hiff := iff_of_false hra hre
      exact Or.inr ⟨hiff.symm, h.oldest a ha hsame hiff⟩
  · rintro ⟨he, hmin⟩
    obtain ⟨hbuffer, hclass⟩ := (hmem e).mp he
    refine ⟨hbuffer, ?_, ?_, ?_⟩
    · rintro ⟨d, hd, hdemand⟩
      rw [hclass]
      exact List.all_eq_false.mpr ⟨d, hd, by rw [hdemand]; exact Bool.false_ne_true⟩
    · rintro ⟨a, ha, hsame, hra⟩
      have hle := hmin a ((hmem a).mpr ⟨ha, hsame.trans hclass⟩)
      rcases (rowKey_le_iff e a).mp hle with ⟨hre, -⟩ | ⟨hiff, -⟩
      · exact hre
      · exact hiff.mpr hra
    · intro a ha hsame hiff
      have hle := hmin a ((hmem a).mpr ⟨ha, hsame.trans hclass⟩)
      rcases (rowKey_le_iff e a).mp hle with ⟨hre, hra⟩ | ⟨-, hle⟩
      · exact absurd (hiff.mpr hre) hra
      · exact hle

/-- What a selection should do: the comparison orders the buffer, the sort permutes it, and the
choice of FR-FCFS comes to its front. -/
structure SelectsFirstReady (k : DramKnobs) (s : DramCtrl) (b : ℕ) : Prop where
  order : StrictWeakOn s.sortFunc (s.buffer b)
  perm : (s.schedule k (s.buffer b)).Perm (s.buffer b)
  choice : ∃ e, (s.schedule k (s.buffer b)).head? = some e ∧ FirstReady k s b e

/-- The selection is right exactly when the truncated id is that of the open row, or the
candidates are such that it makes no difference. -/
theorem frfcfs_selects_first_ready_iff (k : DramKnobs) (s : DramCtrl) (b : ℕ)
    (hpolicy : k.policy = .frfcfs) (hne : s.buffer b ≠ []) (hnodup : (s.buffer b).Nodup)
    (hfiled : ∀ e ∈ s.buffer b, Filed k s b e) :
    SelectsFirstReady k s b ↔ DramCtrl.asInt (s.currentRid b) = s.currentRid b ∨
      ChosenAnyway (rowOf k s) (fun e => (s.entry e).timestamp) (s.currentRid b)
        (DramCtrl.asInt (s.currentRid b)) (candidates s b) := by
  have hhead := schedule_head hpolicy hnodup hfiled
  have horder : StrictWeakOn s.sortFunc (s.buffer b) :=
    strictWeakOn_of_key fun e he a ha => sortFunc_eq (hfiled e he) (hfiled a ha)
  have hperm := schedule_perm (k := k) s (s.buffer b)
  obtain ⟨e, he⟩ : ∃ e, (s.schedule k (s.buffer b)).head? = some e := by
    cases hsched : s.schedule k (s.buffer b) with
    | nil =>
      rw [hsched] at hperm
      exact absurd hperm.nil_eq.symm hne
    | cons e rest => exact ⟨e, rfl⟩
  have hmin := hhead.symm.trans he
  rw [← chosen_iff hmin]
  constructor
  · rintro ⟨-, -, e', he', hfirst⟩
    obtain rfl := Option.some.inj (he.symm.trans he')
    exact (firstReady_iff.mp hfirst).2
  · intro hall
    exact ⟨horder, hperm, e, he, firstReady_iff.mpr ⟨(firstMin_eq_some hmin).1, hall⟩⟩

/-! ## Two requests at a bank -/

/-- FR-FCFS with two entries a bank and no permutation of the banks. -/
def smallFrfcfs : DramKnobs := { smallDram with policy := .frfcfs, bankXorIndex := false }

/-- A request for row 0, and then one for the address `addr`, whose row `row` is open. -/
def twoRequests (addr : Addr) (row : BitVec 64) : DramCtrl :=
  let s := (DramCtrl.run smallFrfcfs
    [.arrive (lineReq 0 .dfetch false), .receive, .tick,
      .arrive (lineReq addr .dfetch false), .receive] fun _ => lineReq 0 .dfetch false).getD
    (DramCtrl.new smallFrfcfs 0 0 fun _ => lineReq 0 .dfetch false)
  { s with currentRid := Function.update s.currentRid 0 row }

/-- Row 1 is open. -/
theorem frfcfs_selects_first_ready_low_row :
    SelectsFirstReady smallFrfcfs (twoRequests 4096 1) 0 :=
  (frfcfs_selects_first_ready_iff smallFrfcfs (twoRequests 4096 1) 0 rfl (by decide +kernel)
    (by decide +kernel) (by decide +kernel)).mpr (Or.inl (by decide +kernel))

/-- Row `2 ^ 31` is open, and the older request for row 0 is chosen. -/
theorem frfcfs_misses_high_row :
    ¬ SelectsFirstReady smallFrfcfs (twoRequests (2 ^ 43) (2 ^ 31)) 0 := by
  intro h
  obtain ⟨e, he, hfirst⟩ := h.choice
  have hhead := schedule_head (k := smallFrfcfs) (s := twoRequests (2 ^ 43) (2 ^ 31)) (b := 0) rfl
    (by decide +kernel) (by decide +kernel)
  rw [he] at hhead
  have hold : firstMin (rowKey (rowOf smallFrfcfs (twoRequests (2 ^ 43) (2 ^ 31)))
      (fun e => ((twoRequests (2 ^ 43) (2 ^ 31)).entry e).timestamp)
      (DramCtrl.asInt ((twoRequests (2 ^ 43) (2 ^ 31)).currentRid 0)))
      (candidates (twoRequests (2 ^ 43) (2 ^ 31)) 0) = some ⟨0, 0⟩ := by decide +kernel
  obtain rfl := Option.some.inj (hhead.trans hold)
  have hopen := hfirst.row ⟨⟨0, 1⟩, by decide +kernel, by decide +kernel, by decide +kernel⟩
  exact absurd hopen (by decide +kernel)

end MacSim.Analysis.Dram
