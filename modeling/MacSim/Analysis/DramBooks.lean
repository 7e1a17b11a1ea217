import MacSim.Analysis.DramMoves

/-!
# The request buffer of the DRAM controller

The entries of a bank are in its buffer, in its free list or in service, each in one place,
and `m_total_req` counts those that are in use.  The first half is the invariant of the moves;
for the counter it is enough to see which bank a move changes and by how much.
-/

set_option autoImplicit false

namespace MacSim.Analysis.Dram

open MacSim.Model MacSim.Computation

variable {k : DramKnobs} {s s' : DramCtrl} {b r : ℕ} {e : DrbId}

/-! ## What is in use after a move -/

/-- What a bank holds depends on its buffer and its current entry only. -/
theorem inUse_congr (hbuf : s'.buffer = s.buffer) (hcur : s'.currentList = s.currentList) :
    inUse s' = inUse s := by
  funext c
  rw [inUse, inUse, hbuf, hcur]

/-- An accepted request adds its entry to the buffer of its bank and to no other. -/
theorem inUse_acceptReq {rest : List ℕ} {free : List DrbId} (c : ℕ) :
    inUse (acceptReq k s r rest e free) c =
      if c = (k.map.parseAddr k.bankXorIndex (s.reqs r).addr).bid.toNat then
        (s.buffer c ++ [e]) ++ (s.currentList c).toList
      else inUse s c := by
  have hbuf : (acceptReq k s r rest e free).buffer = Function.update s.buffer _ _ := rfl
  have hcur : (acceptReq k s r rest e free).currentList = s.currentList := rfl
  rw [inUse_update hbuf hcur c]
  split
  · rename_i hc
    rw [hc]
    rfl
  · rfl

/-- A flushed prefetch leaves the buffer of its bank and no other. -/
theorem inUse_flushReq (c : ℕ) :
    inUse (flushReq s b e r) c =
      if c = b then (s.buffer b).filter (· ≠ e) ++ (s.currentList b).toList else inUse s c := by
  have hbuf : (flushReq s b e r).buffer = Function.update s.buffer b _ := rfl
  exact inUse_update hbuf rfl c

/-- A merged request leaves the buffer of its bank and no other. -/
theorem inUse_merge (finish c : ℕ) :
    inUse ((s.retire k finish r).releaseEntry b e) c =
      if c = b then (s.buffer b).filter (· ≠ e) ++ (s.currentList b).toList else inUse s c := by
  have hsame := sameBanks_retire (k := k) s finish r
  have hbuf : ((s.retire k finish r).releaseEntry b e).buffer =
      Function.update s.buffer b ((s.buffer b).filter (· ≠ e)) := by
    show Function.update (s.retire k finish r).buffer b
      (((s.retire k finish r).buffer b).filter (· ≠ e)) = _
    rw [hsame.buffer]
  exact inUse_update hbuf hsame.currentList c

/-- A finished entry leaves its bank with the buffer alone. -/
theorem inUse_finishEntry (finish c : ℕ) :
    inUse (finishEntry k s b e finish r) c = if c = b then s.buffer b else inUse s c := by
  have hsame := sameBanks_retire (k := k) s finish r
  have hbuf : (finishEntry k s b e finish r).buffer = s.buffer := hsame.buffer
  have hcur : (finishEntry k s b e finish r).currentList =
      Function.update (s.retire k finish r).currentList b none := rfl
  rw [inUse, hbuf, hcur, hsame.currentList, Function.update_apply]
  split
  · rename_i hc
    rw [hc]
    simp
  · rfl

/-- A selected entry moves from the buffer to the end of what its bank holds. -/
theorem inUse_selectEntry {buffer : List DrbId} (c : ℕ) :
    inUse (s.selectEntry b e buffer) c =
      if c = b then buffer.filter (· ≠ e) ++ [e] else inUse s c := by
  have hbuf : (s.selectEntry b e buffer).buffer =
      Function.update s.buffer b (buffer.filter (· ≠ e)) := rfl
  have hcur : (s.selectEntry b e buffer).currentList =
      Function.update s.currentList b (some e) := rfl
  rw [inUse, hbuf, hcur, Function.update_apply, Function.update_apply]
  split <;> rfl

/-! ## The counter -/

/-- `m_total_req` counts the entries in use. -/
def Counted (k : DramKnobs) (s : DramCtrl) : Prop :=
  s.totalReq = ∑ b ∈ Finset.range k.numBank, ((inUse s b).length : ℤ)

namespace Counted

/-- The count is about the buffers, the current entries and the total. -/
theorem congr (h : Counted k s) (hbuf : s'.buffer = s.buffer)
    (hcur : s'.currentList = s.currentList) (htotal : s'.totalReq = s.totalReq) :
    Counted k s' := by
  rw [Counted, htotal, inUse_congr hbuf hcur]
  exact h

/-- One bank changes, and the counter by as much. -/
theorem change {d : ℤ} (h : Counted k s) (hb : b < k.numBank)
    (hother : ∀ c, c ≠ b → inUse s' c = inUse s c)
    (hself : ((inUse s' b).length : ℤ) = (inUse s b).length + d)
    (htotal : s'.totalReq = s.totalReq + d) : Counted k s' := by
  have hmem : b ∈ Finset.range k.numBank := Finset.mem_range.mpr hb
  have hrest : ∑ c ∈ (Finset.range k.numBank).erase b, ((inUse s' c).length : ℤ) =
      ∑ c ∈ (Finset.range k.numBank).erase b, ((inUse s c).length : ℤ) :=
    Finset.sum_congr rfl fun c hc => by rw [hother c (Finset.ne_of_mem_erase hc)]
  have hsum := h
  rw [Counted, ← Finset.add_sum_erase _ _ hmem] at hsum
  rw [Counted, ← Finset.add_sum_erase _ _ hmem, hrest, hself, htotal, hsum]
  ring

end Counted

/-- An entry of the buffer is one of its length. -/
theorem length_filter_ne {l : List DrbId} (hl : l.Nodup) (he : e ∈ l) :
    (l.filter (· ≠ e)).length + 1 = l.length := by
  have := (perm_cons_filter_ne hl he).length_eq
  simpa using this

/-- Each move of the controller keeps the total of requests. -/
theorem counted_move (hT : Tidy k s) (h : Counted k s) (hm : DramMove k s s') :
    Counted k s' := by
  cases hm with
  | count | tick | arrive | mark | delay => exact h.congr rfl rfl rfl
  | adjust r req =>
      have hsame := sameBanks_adjustReq s r req
      exact h.congr hsame.buffer hsame.currentList hsame.totalReq
  | send accepts =>
      have hsame := sameBanks_send (k := k) s accepts
      exact h.congr hsame.buffer hsame.currentList hsame.totalReq
  | wake b e => exact h.congr rfl rfl rfl
  | command b e =>
      have hsame := sameTraffic_issueCommand (k := k) s b e
      exact h.congr hsame.buffer hsame.currentList hsame.totalReq
  | transfer ii b e =>
      have hsame := sameTraffic_transfer (k := k) s ii b e
      exact h.congr hsame.buffer hsame.currentList hsame.totalReq
  | accept r rest e free _ hfree =>
      refine h.change (d := 1) (bid_lt_numBank k (s.reqs r).addr) ?_ ?_ rfl
      · intro c hc
        rw [inUse_acceptReq, if_neg hc]
      · rw [inUse_acceptReq, if_pos rfl]
        simp [inUse]
        ring
  | flush b e r hb he =>
      refine h.change (d := -1) hb ?_ ?_ rfl
      · intro c hc
        rw [inUse_flushReq, if_neg hc]
      · have hlen := length_filter_ne (hT.nodup_buffer b) he
        rw [inUse_flushReq, if_pos rfl, inUse, List.length_append, List.length_append]
        push_cast
        omega
  | merge b e finish r hb he =>
      have hsame := sameBanks_retire (k := k) s finish r
      refine h.change (d := -1) hb ?_ ?_ ?_
      · intro c hc
        rw [inUse_merge, if_neg hc]
      · have hlen := length_filter_ne (hT.nodup_buffer b) he
        rw [inUse_merge, if_pos rfl, inUse, List.length_append, List.length_append]
        push_cast
        omega
      · exact congrArg (· - 1) hsame.totalReq
  | finish b e finish r hb he =>
      have hsame := sameBanks_retire (k := k) s finish r
      refine h.change (d := -1) hb ?_ ?_ ?_
      · intro c hc
        rw [inUse_finishEntry, if_neg hc]
      · rw [inUse_finishEntry, if_pos rfl, inUse, he]
        simp
      · exact congrArg (· - 1) hsame.totalReq
  | select b e buffer hb hc hp he =>
      refine h.change (d := 0) hb ?_ ?_ ?_
      · intro c hc
        rw [inUse_selectEntry, if_neg hc]
      · have hlen := length_filter_ne (hp.nodup_iff.mpr (hT.nodup_buffer b)) he
        have hperm := hp.length_eq
        rw [inUse_selectEntry, if_pos rfl, inUse, hc, List.length_append, List.length_append,
          ← hperm, ← hlen]
        simp
      · exact (add_zero _).symm

/-- Every reachable controller is tidy and counts its requests. -/
theorem reachable_counted (h : s.Reachable k) : Tidy k s ∧ Counted k s := by
  refine reachable_induction ?_ (fun _ _ hT hc hm => counted_move hT hc hm) h
  intro completed starvation reqs
  simp [Counted, inUse, DramCtrl.new]

/-! ## The result -/

/-- In every run and at every bank, the entries of the buffer, of the free list and in service
are pairwise different, and together they are the entries made for the bank; `m_total_req` is
the number of entries in the buffers and in service. -/
theorem drb_conservation (k : DramKnobs) (s : DramCtrl) (h : s.Reachable k) :
    (∀ b < k.numBank,
      (s.buffer b).Nodup ∧ (s.bufferFreeList b).Nodup ∧
      (∀ e ∈ s.buffer b, e ∉ s.bufferFreeList b) ∧
      (∀ e, s.currentList b = some e → e ∉ s.buffer b ∧ e ∉ s.bufferFreeList b) ∧
      ∀ e : DrbId, (e ∈ s.buffer b ∨ e ∈ s.bufferFreeList b ∨ s.currentList b = some e) ↔
        e.bank = b ∧ e.index < k.bufferSize) ∧
    s.totalReq = ∑ b ∈ Finset.range k.numBank,
      (((s.buffer b).length : ℤ) + if (s.currentList b).isSome then 1 else 0) := by
  obtain ⟨hT, hcount⟩ := reachable_counted h
  constructor
  · intro b _
    refine ⟨hT.nodup_buffer b, (List.nodup_append.mp (hT.nodup b)).2.1, ?_, ?_, ?_⟩
    · intro e he hfree
      exact hT.free_notMem hfree b (mem_inUse_of_buffer he)
    · intro e he
      refine ⟨hT.current_notMem he, fun hfree => ?_⟩
      exact hT.free_notMem hfree b (mem_inUse_of_current he)
    · intro e
      have hmem := (hT.stock b).mem_iff (a := e)
      rw [DramKnobs.slots, inUse, List.mem_append, List.mem_append, List.mem_map,
        Option.mem_toList] at hmem
      constructor
      · intro he
        obtain ⟨i, hi, rfl⟩ := hmem.mp (by tauto)
        exact ⟨rfl, List.mem_range.mp hi⟩
      · rintro ⟨rfl, hi⟩
        have := hmem.mpr ⟨e.index, List.mem_range.mpr hi, rfl⟩
        tauto
  · rw [hcount]
    refine Finset.sum_congr rfl fun b _ => ?_
    rw [inUse, List.length_append]
    cases s.currentList b <;> simp

/-- A run with two requests for one bank, at a cycle where one of them is in service. -/
theorem drb_conservation_small : ∃ s : DramCtrl, s.Reachable smallDram ∧ s.totalReq = 2 ∧
    s.totalReq = ∑ b ∈ Finset.range smallDram.numBank,
      (((s.buffer b).length : ℤ) + if (s.currentList b).isSome then 1 else 0) := by
  obtain ⟨s, hs, hx⟩ := DramCtrl.reachable_run smallDram
    ([.arrive (lineReq 0 .dfetch false), .arrive (lineReq 4096 .wb false)] ++ dramCycles 4)
    (fun _ => lineReq 0 .dfetch false) DramCtrl.totalReq 2 (by decide +kernel)
  exact ⟨s, hs, hx, (drb_conservation smallDram s hs).2⟩

end MacSim.Analysis.Dram
