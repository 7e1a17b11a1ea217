import MacSim.Analysis.DramBooks
import MacSim.Analysis.DramSend
import Mathlib.Algebra.Order.Group.Multiset
import Mathlib.Data.List.TakeWhile

/-!
# Every request leaves the DRAM controller once

A delivered request is in the receive queue, in an entry of a bank, in one of the two output
buffers, or it has left: freed by a flush, freed on completion, or sent.  `Account` says that
these places together hold every request once.  `Output` follows the requests from their
completion on: the requests sent, those in the output buffer and those delayed are, in this
order, the completed ones of each kind, and the clock values are as they should be.
-/

set_option autoImplicit false

namespace MacSim.Analysis.Dram

open MacSim.Model MacSim.Computation

variable {k : DramKnobs} {s s' : DramCtrl} {b r : ℕ} {e : DrbId}

/-! ## Requests in banks -/

/-- The requests of the entries in use at bank `b`. -/
def reqsAt (s : DramCtrl) (b : ℕ) : Multiset ℕ :=
  ((inUse s b).filterMap fun e => (s.entry e).req : List ℕ)

/-- The requests in all banks. -/
def inBanks (k : DramKnobs) (s : DramCtrl) : Multiset ℕ :=
  ∑ b ∈ Finset.range k.numBank, reqsAt s b

/-- The requests at a bank depend on what it holds and on its entries. -/
theorem reqsAt_congr (huse : inUse s' b = inUse s b)
    (hreq : ∀ i ∈ inUse s b, (s'.entry i).req = (s.entry i).req) : reqsAt s' b = reqsAt s b := by
  rw [reqsAt, reqsAt, huse, List.filterMap_congr hreq]

/-- Bank `b` of `s'` has one entry more than that of `s`. -/
theorem reqsAt_cons (hp : (inUse s' b).Perm (e :: inUse s b))
    (hreq : ∀ i ∈ inUse s b, (s'.entry i).req = (s.entry i).req)
    (hr : (s'.entry e).req = some r) : reqsAt s' b = r ::ₘ reqsAt s b := by
  have hlist : ((inUse s' b).filterMap fun i => (s'.entry i).req).Perm
      (r :: (inUse s b).filterMap fun i => (s.entry i).req) := by
    refine (hp.filterMap _).trans ?_
    simp only [List.filterMap_cons, hr]
    rw [List.filterMap_congr hreq]
  rw [reqsAt, reqsAt, Multiset.cons_coe]
  exact Quotient.sound hlist

/-- The requests in the banks are those of each bank. -/
theorem inBanks_congr (h : ∀ b < k.numBank, reqsAt s' b = reqsAt s b) :
    inBanks k s' = inBanks k s :=
  Finset.sum_congr rfl fun b hb => h b (Finset.mem_range.mp hb)

/-- A request that one bank gains is gained by the banks. -/
theorem inBanks_cons (hb : b < k.numBank) (hother : ∀ c, c ≠ b → reqsAt s' c = reqsAt s c)
    (hself : reqsAt s' b = r ::ₘ reqsAt s b) : inBanks k s' = r ::ₘ inBanks k s := by
  have hmem : b ∈ Finset.range k.numBank := Finset.mem_range.mpr hb
  have hrest : ∑ c ∈ (Finset.range k.numBank).erase b, reqsAt s' c =
      ∑ c ∈ (Finset.range k.numBank).erase b, reqsAt s c :=
    Finset.sum_congr rfl fun c hc => hother c (Finset.ne_of_mem_erase hc)
  rw [inBanks, inBanks, ← Finset.add_sum_erase _ _ hmem, ← Finset.add_sum_erase _ _ hmem, hrest,
    hself, Multiset.cons_add]

/-- The request of an entry that is held is in the banks. -/
theorem mem_inBanks (hb : b < k.numBank) (he : e ∈ inUse s b) (hr : (s.entry e).req = some r) :
    r ∈ inBanks k s := by
  rw [inBanks, Multiset.mem_sum]
  refine ⟨b, Finset.mem_range.mpr hb, ?_⟩
  rw [reqsAt, Multiset.mem_coe, List.mem_filterMap]
  exact ⟨e, he, hr⟩

/-! What each move does to the requests in banks. -/

/-- A difference outside the banks moves no request. -/
theorem inBanks_sameBanks (h : SameBanks s s') : inBanks k s' = inBanks k s := by
  refine inBanks_congr fun b _ => reqsAt_congr ?_ ?_
  · rw [inUse_congr h.buffer h.currentList]
  · intro i _
    rw [h.entry]

/-- A step with the same traffic moves no request. -/
theorem inBanks_sameTraffic (h : SameTraffic s s') : inBanks k s' = inBanks k s := by
  refine inBanks_congr fun b _ => reqsAt_congr ?_ ?_
  · rw [inUse_congr h.buffer h.currentList]
  · intro i _
    rw [h.req]

/-- An accepted request enters the banks. -/
theorem inBanks_acceptReq {rest : List ℕ} {free : List DrbId} (hT : Tidy k s)
    (hfree : s.bufferFreeList (k.map.parseAddr k.bankXorIndex (s.reqs r).addr).bid.toNat =
      e :: free) : inBanks k (acceptReq k s r rest e free) = r ::ₘ inBanks k s := by
  have hne (c : ℕ) (i : DrbId) (hi : i ∈ inUse s c) : i ≠ e := by
    rintro rfl
    exact hT.free_notMem (by rw [hfree]; exact List.mem_cons_self) c hi
  have hentry (i : DrbId) (hi : i ≠ e) :
      (acceptReq k s r rest e free).entry i = s.entry i := Function.update_of_ne hi _ _
  refine inBanks_cons (bid_lt_numBank k (s.reqs r).addr) ?_ (reqsAt_cons (e := e) ?_ ?_ ?_)
  · intro c hc
    refine reqsAt_congr ?_ ?_
    · rw [inUse_acceptReq, if_neg hc]
    · intro i hi
      rw [hentry i (hne c i hi)]
  · rw [inUse_acceptReq, if_pos rfl, List.append_assoc, inUse]
    exact List.perm_middle
  · intro i hi
    rw [hentry i (hne _ i hi)]
  · show (Function.update s.entry e _ e).req = some r
    rw [Function.update_self]
    rfl

/-- An entry leaves the buffer of bank `b`. -/
theorem inBanks_release (hT : Tidy k s) (hb : b < k.numBank) (he : e ∈ s.buffer b)
    (hr : (s.entry e).req = some r)
    (huse : ∀ c, inUse s' c =
      if c = b then (s.buffer b).filter (· ≠ e) ++ (s.currentList b).toList else inUse s c)
    (hentry : ∀ i, i ≠ e → s'.entry i = s.entry i) : inBanks k s = r ::ₘ inBanks k s' := by
  have hmem : e ∈ inUse s b := mem_inUse_of_buffer he
  refine inBanks_cons hb ?_ (reqsAt_cons (e := e) ?_ ?_ hr)
  · intro c hc
    refine (reqsAt_congr ?_ ?_).symm
    · rw [huse, if_neg hc]
    · intro i hi
      rw [hentry i (hT.ne_of_bank_ne hmem hi hc)]
  · rw [huse, if_pos rfl, inUse, ← List.cons_append]
    exact (perm_cons_filter_ne (hT.nodup_buffer b) he).symm.append_right _
  · intro i hi
    rw [huse, if_pos rfl] at hi
    have hie : i ≠ e := by
      rcases List.mem_append.mp hi with hi | hi
      · simpa using (List.mem_filter.mp hi).2
      · rintro rfl
        exact hT.current_notMem (by simpa using hi) he
    rw [hentry i hie]

/-- A finished entry takes its request out of the banks. -/
theorem inBanks_finishEntry {finish : ℕ} (hT : Tidy k s) (hb : b < k.numBank)
    (he : s.currentList b = some e) (hr : (s.entry e).req = some r) :
    inBanks k s = r ::ₘ inBanks k (finishEntry k s b e finish r) := by
  have hmem : e ∈ inUse s b := mem_inUse_of_current he
  have hentry (i : DrbId) (hi : i ≠ e) :
      (finishEntry k s b e finish r).entry i = s.entry i := by
    show Function.update (s.retire k finish r).entry e _ i = _
    rw [Function.update_of_ne hi, (sameBanks_retire s finish r).entry]
  refine inBanks_cons hb ?_ (reqsAt_cons (e := e) ?_ ?_ hr)
  · intro c hc
    refine (reqsAt_congr ?_ ?_).symm
    · rw [inUse_finishEntry, if_neg hc]
    · intro i hi
      rw [hentry i (hT.ne_of_bank_ne hmem hi hc)]
  · rw [inUse_finishEntry, if_pos rfl, inUse, he]
    exact List.perm_append_singleton e _
  · intro i hi
    rw [inUse_finishEntry, if_pos rfl] at hi
    have hie : i ≠ e := by
      rintro rfl
      exact hT.current_notMem he hi
    rw [hentry i hie]

/-- A selection moves no request out of its bank. -/
theorem inBanks_selectEntry {buffer : List DrbId} (hT : Tidy k s) (hc : s.currentList b = none)
    (hp : buffer.Perm (s.buffer b)) (he : e ∈ buffer) :
    inBanks k (s.selectEntry b e buffer) = inBanks k s := by
  have hreq (i : DrbId) : ((s.selectEntry b e buffer).entry i).req = (s.entry i).req := by
    show (Function.update s.entry e _ i).req = _
    refine update_field (·.req) ?_ i
    rfl
  refine inBanks_congr fun c _ => ?_
  by_cases hcb : c = b
  · subst hcb
    have hperm : (inUse (s.selectEntry c e buffer) c).Perm (inUse s c) := by
      rw [inUse_selectEntry, if_pos rfl, inUse, hc]
      simp only [Option.toList_none, List.append_nil]
      refine (List.perm_append_singleton e _).trans ?_
      exact (perm_cons_filter_ne (hp.nodup_iff.mpr (hT.nodup_buffer c)) he).trans hp
    rw [reqsAt, reqsAt, List.filterMap_congr fun i _ => hreq i]
    exact Quotient.sound (hperm.filterMap _)
  · refine reqsAt_congr ?_ fun i _ => hreq i
    rw [inUse_selectEntry, if_neg hcb]

/-! ## The account of all requests -/

/-- The requests that are not in a bank: those that wait, and those that have left. -/
def outside (s : DramCtrl) : Multiset ℕ :=
  (s.incoming : Multiset ℕ) + (s.tmpOutputBuffer : Multiset ℕ) + (s.outputBuffer : Multiset ℕ) +
    (s.flushed.map (·.1) : List ℕ) + (s.retired : Multiset ℕ) + (s.sent.map (·.req) : List ℕ)

/-- Every delivered request is in one place, and requests are accepted in order. -/
structure Account (k : DramKnobs) (s : DramCtrl) : Prop where
  fifo : s.accepted ++ s.incoming = List.range s.arrived
  books : outside s + inBanks k s = Multiset.range s.arrived

namespace Account

/-- No request is counted twice. -/
theorem nodup (h : Account k s) : (outside s + inBanks k s).Nodup := by
  rw [h.books]
  exact Multiset.nodup_range _

/-- A request outside the banks has arrived. -/
theorem lt_of_outside (h : Account k s) (hr : r ∈ outside s) : r < s.arrived := by
  have : r ∈ Multiset.range s.arrived := by
    rw [← h.books]
    exact Multiset.mem_add.mpr (.inl hr)
  exact Multiset.mem_range.mp this

/-- A request in a bank is nowhere else. -/
theorem notMem_outside (h : Account k s) (hr : r ∈ inBanks k s) : r ∉ outside s := by
  intro hout
  exact Multiset.disjoint_left.mp (Multiset.nodup_add.mp h.nodup).2.2 hout hr

/-- No request outside the banks is counted twice. -/
theorem nodup_outside (h : Account k s) : (outside s).Nodup :=
  Multiset.nodup_of_le (Multiset.le_add_right _ _) h.nodup

/-- No request is twice among the sent and the outgoing ones. -/
theorem nodup_outputs (h : Account k s) :
    (s.sent.map (·.req) ++ s.outputBuffer ++ s.tmpOutputBuffer).Nodup := by
  have hle : ((s.sent.map (·.req) ++ s.outputBuffer ++ s.tmpOutputBuffer : List ℕ) :
      Multiset ℕ) ≤ outside s := by
    rw [← Multiset.coe_add, ← Multiset.coe_add, outside]
    have : (s.incoming : Multiset ℕ) + (s.tmpOutputBuffer : Multiset ℕ) +
        (s.outputBuffer : Multiset ℕ) + (s.flushed.map (·.1) : List ℕ) +
        (s.retired : Multiset ℕ) + (s.sent.map (·.req) : List ℕ) =
      ((s.sent.map (·.req) : List ℕ) + (s.outputBuffer : Multiset ℕ) +
        (s.tmpOutputBuffer : Multiset ℕ)) + ((s.incoming : Multiset ℕ) +
        (s.flushed.map (·.1) : List ℕ) + (s.retired : Multiset ℕ)) := by abel
    rw [this]
    exact Multiset.le_add_right _ _
  exact Multiset.coe_nodup.mp (Multiset.nodup_of_le hle h.nodup_outside)

/-- The account is about the accepted, incoming and arrived requests, the banks and what is outside.
-/
theorem congr (h : Account k s) (hacc : s'.accepted = s.accepted)
    (hin : s'.incoming = s.incoming) (harr : s'.arrived = s.arrived)
    (hout : outside s' = outside s) (hbanks : inBanks k s' = inBanks k s) : Account k s' where
  fifo := by rw [hacc, hin, harr, h.fifo]
  books := by rw [hout, hbanks, harr, h.books]

/-- A request goes from a bank to another place. -/
theorem leave (h : Account k s) (hacc : s'.accepted = s.accepted)
    (hin : s'.incoming = s.incoming) (harr : s'.arrived = s.arrived)
    (hout : outside s' = r ::ₘ outside s) (hbanks : inBanks k s = r ::ₘ inBanks k s') :
    Account k s' where
  fifo := by rw [hacc, hin, harr, h.fifo]
  books := by rw [hout, harr, ← h.books, hbanks, Multiset.cons_add, Multiset.add_cons]

end Account

/-- What is outside the banks is read from the queues and the logs. -/
theorem outside_congr (hin : s'.incoming = s.incoming)
    (htmp : s'.tmpOutputBuffer = s.tmpOutputBuffer) (hout : s'.outputBuffer = s.outputBuffer)
    (hfl : s'.flushed = s.flushed) (hre : s'.retired = s.retired) (hse : s'.sent = s.sent) :
    outside s' = outside s := by
  rw [outside, outside, hin, htmp, hout, hfl, hre, hse]

/-- What retiring a request does: a write-back is freed, any other request goes to the delayed
or to the output buffer. -/
theorem retire_cases (s : DramCtrl) (finish r : ℕ) :
    ((s.reqs r).type = .wb ∧
      s.retire k finish r = { s with retired := s.retired ++ [r] }) ∨
    ((s.reqs r).type ≠ .wb ∧ k.delayed = true ∧
      s.retire k finish r =
        { s with
          reqs := Function.update s.reqs r
            { s.reqs r with rdyCycle := s.cycle + k.additionalLatency, state := .dramDone }
          completed := s.completed ++ [⟨r, finish, s.cycle⟩]
          tmpOutputBuffer := s.tmpOutputBuffer ++ [r] }) ∨
    ((s.reqs r).type ≠ .wb ∧ k.delayed = false ∧
      s.retire k finish r =
        { s with
          reqs := Function.update s.reqs r { s.reqs r with state := .dramDone }
          completed := s.completed ++ [⟨r, finish, s.cycle⟩]
          outputBuffer := s.outputBuffer ++ [r] }) := by
  unfold DramCtrl.retire
  by_cases hw : (s.reqs r).type = .wb
  · exact .inl ⟨hw, if_pos hw⟩
  · rw [if_neg hw]
    cases hd : k.delayed with
    | false => exact .inr (.inr ⟨hw, rfl, rfl⟩)
    | true =>
        refine .inr (.inl ⟨hw, rfl, ?_⟩)
        simp only [DramCtrl.modifyReq, if_true, Function.update_self, Function.update_idem]

/-- Retiring a request puts it outside the banks. -/
theorem outside_retire (s : DramCtrl) (finish r : ℕ) :
    outside (s.retire k finish r) = r ::ₘ outside s := by
  have happend (l : List ℕ) : ((l ++ [r] : List ℕ) : Multiset ℕ) = {r} + (l : Multiset ℕ) := by
    rw [← Multiset.coe_add, add_comm]
    rfl
  rw [← Multiset.singleton_add]
  obtain ⟨-, hs⟩ | ⟨-, -, hs⟩ | ⟨-, -, hs⟩ := retire_cases (k := k) s finish r
  · rw [hs]
    simp only [outside, happend]
    abel
  · rw [hs]
    simp only [outside, happend]
    abel
  · rw [hs]
    simp only [outside, happend]
    abel

/-- The delayed requests that are due. -/
def dueReqs (s : DramCtrl) : List ℕ :=
  s.tmpOutputBuffer.takeWhile fun r => (s.reqs r).rdyCycle ≤ s.cycle

/-- The delayed requests that are not. -/
def earlyReqs (s : DramCtrl) : List ℕ :=
  s.tmpOutputBuffer.dropWhile fun r => (s.reqs r).rdyCycle ≤ s.cycle

/-- The outgoing requests are those that are due and those that are early. -/
theorem dueReqs_append_earlyReqs (s : DramCtrl) :
    dueReqs s ++ earlyReqs s = s.tmpOutputBuffer := List.takeWhile_append_dropWhile

/-- A request that is due is ready by now. -/
theorem rdyCycle_le_of_due (h : r ∈ dueReqs s) : (s.reqs r).rdyCycle ≤ s.cycle := by
  rw [dueReqs] at h
  simpa using List.mem_takeWhile_imp h

/-- Delayed requests move to the output buffer from the front. -/
theorem delayPacket_eq (hn : s.tmpOutputBuffer.Nodup) :
    s.delayPacket =
      { s with
        outputBuffer := s.outputBuffer ++ dueReqs s
        tmpOutputBuffer := earlyReqs s } := by
  unfold DramCtrl.delayPacket
  dsimp only
  rw [filter_notMem_takeWhile hn]
  rfl

/-- Delaying packets keeps what is outside the banks. -/
theorem outside_delayPacket (hn : s.tmpOutputBuffer.Nodup) :
    outside s.delayPacket = outside s := by
  rw [delayPacket_eq hn]
  simp only [outside, ← dueReqs_append_earlyReqs s, ← Multiset.coe_add]
  abel

/-! ## From completion on -/

/-- A request of the kind `g` whose kind was never changed. -/
def steady (s : DramCtrl) (g : Bool) (r : ℕ) : Bool := (s.reqs r).acc = g && r ∉ s.reclassified

/-- The completed requests in the order in which they go or are to go. -/
def queued (s : DramCtrl) : List ℕ :=
  s.sent.map (·.req) ++ s.outputBuffer ++ s.tmpOutputBuffer

/-- The way of the requests from completion to the network. -/
structure Output (k : DramKnobs) (s : DramCtrl) : Prop where
  direct : k.delayed = false → s.tmpOutputBuffer = []
  done : (s.completed.map (·.req)).Perm (queued s)
  order : ∀ g, (queued s).filter (steady s g) = (s.completed.map (·.req)).filter (steady s g)
  late : ∀ c ∈ s.completed, c.finish ≤ c.cycle
  waiting : ∀ c ∈ s.completed, c.req ∈ s.tmpOutputBuffer →
    (s.reqs c.req).rdyCycle = c.cycle + k.additionalLatency
  ready : ∀ c ∈ s.completed, c.req ∈ s.outputBuffer → c.cycle + k.additionalLatency ≤ s.cycle
  fill : ∀ m ∈ s.sent, m.msgType = .fill
  gone : ∀ m ∈ s.sent, ∀ c ∈ s.completed, c.req = m.req →
    c.cycle + k.additionalLatency ≤ m.cycle
  wb : ∀ r ∈ s.retired, (s.reqs r).type = .wb
  data : ∀ c ∈ s.completed, (s.reqs c.req).type ≠ .wb
  prefetch : ∀ p ∈ s.flushed, p.2 = .dprf ∧ (s.reqs p.1).type ≠ .wb

/-- All requests outside the banks were delivered. -/
def Bounded (s : DramCtrl) : Prop := ∀ r ∈ outside s, r < s.arrived

/-- Nothing that `Output` speaks about is different, except that requests may be singled out
as reclassified. -/
structure SameOutput (s s' : DramCtrl) : Prop where
  steady : ∃ keep : ℕ → Bool, ∀ g, ∀ r < s.arrived, steady s' g r = (steady s g r && keep r)
  isWb : ∀ r < s.arrived, ((s'.reqs r).type = .wb ↔ (s.reqs r).type = .wb)
  rdyCycle : ∀ r < s.arrived, (s'.reqs r).rdyCycle = (s.reqs r).rdyCycle
  cycle : s.cycle ≤ s'.cycle
  outputBuffer : s'.outputBuffer = s.outputBuffer
  tmpOutputBuffer : s'.tmpOutputBuffer = s.tmpOutputBuffer
  flushed : s'.flushed = s.flushed
  retired : s'.retired = s.retired
  completed : s'.completed = s.completed
  sent : s'.sent = s.sent

/-- The requests are the same up to their states. -/
theorem SameOutput.of_reqs
    (hreqs : ∀ r < s.arrived, (s'.reqs r).acc = (s.reqs r).acc ∧
      (s'.reqs r).type = (s.reqs r).type ∧ (s'.reqs r).rdyCycle = (s.reqs r).rdyCycle)
    (hcycle : s.cycle ≤ s'.cycle) (hout : s'.outputBuffer = s.outputBuffer)
    (htmp : s'.tmpOutputBuffer = s.tmpOutputBuffer) (hrc : s'.reclassified = s.reclassified)
    (hfl : s'.flushed = s.flushed) (hre : s'.retired = s.retired)
    (hco : s'.completed = s.completed) (hse : s'.sent = s.sent) : SameOutput s s' where
  steady := by
    refine ⟨fun _ => true, fun g r hr => ?_⟩
    rw [Dram.steady, Dram.steady, (hreqs r hr).1, hrc, Bool.and_true]
  isWb r hr := by rw [(hreqs r hr).2.1]
  rdyCycle r hr := (hreqs r hr).2.2
  cycle := hcycle
  outputBuffer := hout
  tmpOutputBuffer := htmp
  flushed := hfl
  retired := hre
  completed := hco
  sent := hse

/-- A queued request is outside the banks. -/
theorem mem_outside_of_queued (h : r ∈ queued s) : r ∈ outside s := by
  simp only [queued, List.mem_append] at h
  simp only [outside, Multiset.mem_add, Multiset.mem_coe]
  tauto

/-- A retired request is outside the banks. -/
theorem mem_outside_of_retired (h : r ∈ s.retired) : r ∈ outside s := by
  simp only [outside, Multiset.mem_add, Multiset.mem_coe]
  tauto

/-- A flushed request is outside the banks. -/
theorem mem_outside_of_flushed {p : ℕ × MemReqType} (h : p ∈ s.flushed) : p.1 ∈ outside s := by
  have hmem : p.1 ∈ s.flushed.map (·.1) := List.mem_map_of_mem h
  simp only [outside, Multiset.mem_add, Multiset.mem_coe]
  tauto

/-- An account bounds the requests outside the banks. -/
theorem Account.bounded (h : Account k s) : Bounded s := fun _ hr => h.lt_of_outside hr

namespace Output

/-- A completed request is queued. -/
theorem mem_queued (h : Output k s) {c : Completion} (hc : c ∈ s.completed) :
    c.req ∈ queued s := h.done.mem_iff.mp (List.mem_map_of_mem hc)

/-- A completed request is outside the banks. -/
theorem mem_outside (h : Output k s) {c : Completion} (hc : c ∈ s.completed) :
    c.req ∈ outside s := mem_outside_of_queued (h.mem_queued hc)

/-- A step with the same output keeps the output in order. -/
theorem congr (hB : Bounded s) (h : Output k s) (hs : SameOutput s s') : Output k s' := by
  have hqueued : queued s' = queued s := by
    rw [queued, queued, hs.sent, hs.outputBuffer, hs.tmpOutputBuffer]
  have hlt {c : Completion} (hc : c ∈ s.completed) := hB _ (h.mem_outside hc)
  constructor
  · rw [hs.tmpOutputBuffer]
    exact h.direct
  · rw [hqueued, hs.completed]
    exact h.done
  · intro g
    obtain ⟨keep, hkeep⟩ := hs.steady
    have hfilter (l : List ℕ) (hl : ∀ r ∈ l, r < s.arrived) :
        l.filter (steady s' g) = (l.filter (steady s g)).filter keep := by
      rw [List.filter_filter]
      refine List.filter_congr fun r hr => ?_
      rw [hkeep g r (hl r hr), Bool.and_comm]
    rw [hqueued, hs.completed, hfilter _ fun r hr => hB r (mem_outside_of_queued hr), h.order g]
    refine (hfilter _ fun r hr => ?_).symm
    obtain ⟨c, hc, rfl⟩ := List.mem_map.mp hr
    exact hlt hc
  · rw [hs.completed]
    exact h.late
  · rw [hs.completed, hs.tmpOutputBuffer]
    intro c hc htmp
    rw [hs.rdyCycle _ (hlt hc)]
    exact h.waiting c hc htmp
  · rw [hs.completed, hs.outputBuffer]
    intro c hc hout
    exact (h.ready c hc hout).trans hs.cycle
  · rw [hs.sent]
    exact h.fill
  · rw [hs.sent, hs.completed]
    exact h.gone
  · rw [hs.retired]
    intro r hr
    rw [hs.isWb _ (hB r (mem_outside_of_retired hr))]
    exact h.wb r hr
  · rw [hs.completed]
    intro c hc
    rw [Ne, hs.isWb _ (hlt hc)]
    exact h.data c hc
  · rw [hs.flushed]
    intro p hp
    rw [Ne, hs.isWb _ (hB _ (mem_outside_of_flushed hp))]
    exact h.prefetch p hp

/-- A prefetch is freed. -/
theorem flushReq (h : Output k s) (ht : (s.reqs r).type = .dprf) :
    Output k (flushReq s b e r) :=
  { h with
    prefetch := by
      intro p hp
      rcases List.mem_append.mp hp with hp | hp
      · exact h.prefetch p hp
      · obtain rfl := List.mem_singleton.mp hp
        refine ⟨ht, ?_⟩
        show (s.reqs r).type ≠ .wb
        rw [ht]
        decide }

/-- A request is completed and queued behind the others. -/
theorem push {finish : ℕ} (h : Output k s) (hr : r ∉ outside s) (hf : finish ≤ s.cycle)
    (ht : (s.reqs r).type ≠ .wb)
    (hreqs : ∀ i, (s'.reqs i).acc = (s.reqs i).acc ∧ (s'.reqs i).type = (s.reqs i).type ∧
      (i ≠ r → (s'.reqs i).rdyCycle = (s.reqs i).rdyCycle))
    (hcompleted : s'.completed = s.completed ++ [⟨r, finish, s.cycle⟩])
    (hqueued : queued s' = queued s ++ [r])
    (hdirect : k.delayed = false → s'.tmpOutputBuffer = [])
    (htmp : ∀ i ∈ s'.tmpOutputBuffer, i ∈ s.tmpOutputBuffer ∨
      i = r ∧ (s'.reqs r).rdyCycle = s.cycle + k.additionalLatency)
    (hout : ∀ i ∈ s'.outputBuffer, i ∈ s.outputBuffer ∨ i = r ∧ k.additionalLatency = 0)
    (hcycle : s'.cycle = s.cycle) (hrc : s'.reclassified = s.reclassified)
    (hfl : s'.flushed = s.flushed) (hre : s'.retired = s.retired) (hse : s'.sent = s.sent) :
    Output k s' := by
  have hne {c : Completion} (hc : c ∈ s.completed) : c.req ≠ r :=
    fun heq => hr (heq ▸ h.mem_outside hc)
  have hnq : r ∉ queued s := fun hmem => hr (mem_outside_of_queued hmem)
  simp only [queued, List.mem_append, not_or] at hnq
  have hsteady (g : Bool) : steady s' g = steady s g := by
    funext i
    rw [steady, steady, (hreqs i).1, hrc]
  have hmem {c : Completion} (hc : c ∈ s'.completed) :
      c ∈ s.completed ∨ c = ⟨r, finish, s.cycle⟩ := by
    rw [hcompleted] at hc
    simpa using hc
  constructor
  · exact hdirect
  · rw [hcompleted, hqueued, List.map_append]
    exact h.done.append_right _
  · intro g
    rw [hsteady, hcompleted, hqueued, List.map_append, List.filter_append, List.filter_append,
      h.order g]
    rfl
  · intro c hc
    rcases hmem hc with hc | rfl
    · exact h.late c hc
    · exact hf
  · intro c hc hw
    rcases htmp _ hw with hw | ⟨hw, hrdy⟩
    · rcases hmem hc with hc | rfl
      · rw [(hreqs _).2.2 (hne hc)]
        exact h.waiting c hc hw
      · exact absurd hw hnq.2
    · rcases hmem hc with hc | rfl
      · exact absurd hw (hne hc)
      · exact hrdy
  · intro c hc hw
    rw [hcycle]
    rcases hout _ hw with hw | ⟨hw, hzero⟩
    · rcases hmem hc with hc | rfl
      · exact h.ready c hc hw
      · exact absurd hw hnq.1.2
    · rcases hmem hc with hc | rfl
      · exact absurd hw (hne hc)
      · rw [hzero]
        exact le_rfl
  · rw [hse]
    exact h.fill
  · rw [hse]
    intro m hm c hc heq
    rcases hmem hc with hc | rfl
    · exact h.gone m hm c hc heq
    · refine absurd ?_ hnq.1.1
      rw [show r = m.req from heq]
      exact List.mem_map_of_mem hm
  · rw [hre]
    intro i hi
    rw [(hreqs i).2.1]
    exact h.wb i hi
  · intro c hc
    rw [(hreqs _).2.1]
    rcases hmem hc with hc | rfl
    · exact h.data c hc
    · exact ht
  · rw [hfl]
    intro p hp
    rw [(hreqs _).2.1]
    exact h.prefetch p hp

/-- A request that was in a bank is retired. -/
theorem retire {finish : ℕ} (h : Output k s) (hr : r ∉ outside s) (hf : finish ≤ s.cycle) :
    Output k (s.retire k finish r) := by
  obtain ⟨ht, hs⟩ | ⟨ht, hd, hs⟩ | ⟨ht, hd, hs⟩ := retire_cases (k := k) s finish r
  · rw [hs]
    exact
      { h with
        wb := by
          intro i hi
          rcases List.mem_append.mp hi with hi | hi
          · exact h.wb i hi
          · obtain rfl := List.mem_singleton.mp hi
            exact ht }
  · rw [hs]
    refine h.push hr hf ht ?_ rfl ?_ ?_ ?_ ?_ rfl rfl rfl rfl rfl
    · intro i
      by_cases hi : i = r
      · subst hi
        simp
      · simp [Function.update_of_ne hi]
    · simp [queued]
    · intro hd'
      rw [hd] at hd'
      cases hd'
    · intro i hi
      rcases List.mem_append.mp hi with hi | hi
      · exact .inl hi
      · exact .inr ⟨List.mem_singleton.mp hi, by simp⟩
    · exact fun i hi => .inl hi
  · rw [hs]
    have htmp := h.direct hd
    have hzero : k.additionalLatency = 0 := by
      by_contra hne
      simp [DramKnobs.delayed, hne] at hd
    refine h.push hr hf ht ?_ rfl ?_ ?_ ?_ ?_ rfl rfl rfl rfl rfl
    · intro i
      by_cases hi : i = r
      · subst hi
        simp
      · simp [Function.update_of_ne hi]
    · simp [queued, htmp]
    · exact fun _ => htmp
    · exact fun i hi => .inl hi
    · intro i hi
      rcases List.mem_append.mp hi with hi | hi
      · exact .inl hi
      · exact .inr ⟨List.mem_singleton.mp hi, hzero⟩

/-- Delayed requests that are due are ready. -/
theorem delayPacket (h : Output k s) (hd : k.delayed = true) (hn : s.tmpOutputBuffer.Nodup) :
    Output k s.delayPacket := by
  have hqueued : queued s.delayPacket = queued s := by
    rw [delayPacket_eq hn]
    simp only [queued, List.append_assoc]
    rw [dueReqs_append_earlyReqs]
  have hsteady (g : Bool) : steady s.delayPacket g = steady s g := rfl
  have hsub {i : ℕ} (hi : i ∈ dueReqs s ∨ i ∈ earlyReqs s) : i ∈ s.tmpOutputBuffer := by
    rw [← dueReqs_append_earlyReqs s, List.mem_append]
    exact hi
  have htmp : s.delayPacket.tmpOutputBuffer = earlyReqs s := by rw [delayPacket_eq hn]
  have hout : s.delayPacket.outputBuffer = s.outputBuffer ++ dueReqs s := rfl
  exact
    { h with
      direct := fun hd' => by rw [hd] at hd'; cases hd'
      done := by rw [hqueued]; exact h.done
      order := fun g => by rw [hqueued, hsteady]; exact h.order g
      waiting := by
        intro c hc hw
        rw [htmp] at hw
        exact h.waiting c hc (hsub (.inr hw))
      ready := by
        intro c hc hw
        rw [hout] at hw
        rcases List.mem_append.mp hw with hw | hw
        · exact h.ready c hc hw
        · have hdue : (s.reqs c.req).rdyCycle ≤ s.cycle := rdyCycle_le_of_due hw
          rw [h.waiting c hc (hsub (.inl hw))] at hdue
          exact hdue }

end Output

/-- The requests sent by one call, and those that stay, in the order of the queue. -/
theorem filter_steady_remaining {out : List ℕ} {g : Bool} (hn : s.outputBuffer.Nodup)
    (hpre : ofKind s g out <+: ofKind s g s.outputBuffer) :
    (out ++ s.outputBuffer.filter (· ∉ out)).filter (steady s g) =
      s.outputBuffer.filter (steady s g) := by
  have hsplit (l : List ℕ) :
      l.filter (steady s g) = (ofKind s g l).filter fun r => r ∉ s.reclassified := by
    rw [ofKind, List.filter_filter]
    refine List.filter_congr fun r _ => ?_
    rw [steady, Bool.and_comm]
  rw [hsplit, hsplit, ofKind_append, ofKind_remaining hn hpre]

section Send

variable {out : List ℕ} {t : DramCtrl}

/-- The requests sent leave the outgoing buffer for the log and stay queued. -/
theorem queued_send (hout : Outgoing out s t) :
    queued { t with outputBuffer := s.outputBuffer.filter (· ∉ out) } =
      s.sent.map (·.req) ++ (out ++ s.outputBuffer.filter (· ∉ out)) ++ s.tmpOutputBuffer := by
  have hmap : (out.map (fillMessage s)).map (·.req) = out := by
    rw [List.map_map]
    exact List.map_id _
  simp only [queued, hout.sent, hout.tmpOutputBuffer, List.map_append, hmap, List.append_assoc]

/-- Sending the first requests of each kind keeps the output in order. -/
theorem Output.sent (hn : s.outputBuffer.Nodup) (h : Output k s) (hout : Outgoing out s t)
    (hpre : ∀ g, ofKind s g out <+: ofKind s g s.outputBuffer) :
    Output k { t with outputBuffer := s.outputBuffer.filter (· ∉ out) } := by
  have hqueued := queued_send hout
  have hperm := perm_remaining hn hpre
  have hsub {i : ℕ} (hi : i ∈ out) : i ∈ s.outputBuffer :=
    hperm.mem_iff.mp (List.mem_append_left _ hi)
  have hcompleted := hout.completed
  constructor
  · exact fun hd => hout.tmpOutputBuffer.trans (h.direct hd)
  · rw [hqueued]
    show (t.completed.map (·.req)).Perm _
    rw [hcompleted]
    exact h.done.trans ((hperm.symm.append_left _).append_right _)
  · intro g
    have hsteady : steady { t with outputBuffer := s.outputBuffer.filter (· ∉ out) } g =
        steady s g := by
      funext i
      show (decide ((t.reqs i).acc = g) && decide (i ∉ t.reclassified)) = steady s g i
      rw [hout.reqs.acc, hout.reclassified]
      rfl
    rw [hqueued, hsteady]
    show _ = (t.completed.map (·.req)).filter _
    have hfilter := filter_steady_remaining hn (hpre g)
    rw [hcompleted, ← h.order g, queued]
    simp only [List.filter_append] at hfilter ⊢
    rw [hfilter]
  · show ∀ c ∈ t.completed, _
    rw [hcompleted]
    exact h.late
  · show ∀ c ∈ t.completed, c.req ∈ t.tmpOutputBuffer → (t.reqs c.req).rdyCycle = _
    rw [hcompleted, hout.tmpOutputBuffer]
    intro c hc hw
    rw [hout.reqs.rdyCycle]
    exact h.waiting c hc hw
  · show ∀ c ∈ t.completed, c.req ∈ _ → _ ≤ t.cycle
    rw [hcompleted, hout.cycle]
    intro c hc hw
    exact h.ready c hc (List.mem_of_mem_filter hw)
  · show ∀ m ∈ t.sent, _
    rw [hout.sent]
    intro m hm
    rcases List.mem_append.mp hm with hm | hm
    · exact h.fill m hm
    · obtain ⟨i, -, rfl⟩ := List.mem_map.mp hm
      rfl
  · show ∀ m ∈ t.sent, ∀ c ∈ t.completed, _
    rw [hout.sent, hcompleted]
    intro m hm c hc heq
    rcases List.mem_append.mp hm with hm | hm
    · exact h.gone m hm c hc heq
    · obtain ⟨i, hi, rfl⟩ := List.mem_map.mp hm
      refine h.ready c hc ?_
      rw [heq]
      exact hsub hi
  · show ∀ r ∈ t.retired, (t.reqs r).type = _
    rw [hout.retired]
    intro r hr
    rw [hout.reqs.type]
    exact h.wb r hr
  · show ∀ c ∈ t.completed, (t.reqs c.req).type ≠ _
    rw [hcompleted]
    intro c hc
    rw [hout.reqs.type]
    exact h.data c hc
  · show ∀ p ∈ t.flushed, _ ∧ (t.reqs p.1).type ≠ _
    rw [hout.flushed]
    intro p hp
    rw [hout.reqs.type]
    exact h.prefetch p hp

/-- Sending the first requests of each kind keeps what is outside the banks. -/
theorem outside_sent (hn : s.outputBuffer.Nodup) (hout : Outgoing out s t)
    (hpre : ∀ g, ofKind s g out <+: ofKind s g s.outputBuffer) :
    outside { t with outputBuffer := s.outputBuffer.filter (· ∉ out) } = outside s := by
  have hmap : (out.map (fillMessage s)).map (·.req) = out := by
    rw [List.map_map]
    exact List.map_id _
  have hperm : ((s.outputBuffer : List ℕ) : Multiset ℕ) =
      (out : Multiset ℕ) + (s.outputBuffer.filter (· ∉ out) : List ℕ) := by
    rw [Multiset.coe_add]
    exact Quotient.sound (perm_remaining hn hpre).symm
  simp only [outside, hout.sent, hout.incoming, hout.tmpOutputBuffer, hout.flushed,
    hout.retired, List.map_append, hmap]
  rw [hperm, ← Multiset.coe_add]
  abel

end Send

/-! ## All moves -/

/-- The invariant of all runs. -/
def Served (k : DramKnobs) (s : DramCtrl) : Prop := Account k s ∧ Output k s

/-- A step with the same traffic keeps the service. -/
theorem served_sameTraffic (h : Served k s) (hs : SameTraffic s s') : Served k s' := by
  refine ⟨h.1.congr hs.accepted hs.incoming hs.arrived ?_ (inBanks_sameTraffic hs), ?_⟩
  · exact outside_congr hs.incoming hs.tmpOutputBuffer hs.outputBuffer hs.flushed hs.retired
      hs.sent
  · refine h.2.congr h.1.bounded (.of_reqs ?_ hs.cycle.ge hs.outputBuffer hs.tmpOutputBuffer
      hs.reclassified hs.flushed hs.retired hs.completed hs.sent)
    intro r _
    rw [hs.reqs]
    exact ⟨rfl, rfl, rfl⟩

/-- A request that leaves its bank is retired; `s'` is what the rest of the routine makes of
the state. -/
theorem served_retire {finish : ℕ} (h : Served k s) (hr : r ∈ inBanks k s)
    (hf : finish ≤ s.cycle) (hbanks : inBanks k s = r ::ₘ inBanks k s')
    (hacc : s'.accepted = s.accepted) (hin : s'.incoming = s.incoming)
    (harr : s'.arrived = s.arrived) (hout : outside s' = outside (s.retire k finish r))
    (hsame : SameOutput (s.retire k finish r) s')
    (harr' : (s.retire k finish r).arrived = s.arrived) : Served k s' := by
  have hnew := h.1.notMem_outside hr
  refine ⟨h.1.leave hacc hin harr (hout.trans (outside_retire s finish r)) hbanks, ?_⟩
  refine (h.2.retire hnew hf).congr ?_ hsame
  intro i hi
  rw [outside_retire, Multiset.mem_cons] at hi
  rw [harr']
  rcases hi with rfl | hi
  · have hmem : i ∈ Multiset.range s.arrived := by
      rw [← h.1.books]
      exact Multiset.mem_add.mpr (.inr hr)
    exact Multiset.mem_range.mp hmem
  · exact h.1.bounded i hi

/-- Retiring a request leaves the accepted, the incoming and the arrived ones alone. -/
theorem retire_rest (s : DramCtrl) (finish r : ℕ) :
    (s.retire k finish r).accepted = s.accepted ∧
      (s.retire k finish r).incoming = s.incoming ∧
      (s.retire k finish r).arrived = s.arrived := by
  obtain ⟨-, hs⟩ | ⟨-, -, hs⟩ | ⟨-, -, hs⟩ := retire_cases (k := k) s finish r <;>
    rw [hs] <;> exact ⟨rfl, rfl, rfl⟩

/-- Only the states of requests are different. -/
theorem SameOutput.of_states
    (hreqs : ∀ r, ∃ st, s'.reqs r = { s.reqs r with state := st })
    (hcycle : s.cycle ≤ s'.cycle) (hout : s'.outputBuffer = s.outputBuffer)
    (htmp : s'.tmpOutputBuffer = s.tmpOutputBuffer) (hrc : s'.reclassified = s.reclassified)
    (hfl : s'.flushed = s.flushed) (hre : s'.retired = s.retired)
    (hco : s'.completed = s.completed) (hse : s'.sent = s.sent) : SameOutput s s' := by
  refine .of_reqs ?_ hcycle hout htmp hrc hfl hre hco hse
  intro r _
  obtain ⟨st, hst⟩ := hreqs r
  rw [hst]
  exact ⟨rfl, rfl, rfl⟩

/-- Setting the state of one request changes no more than a state in any. -/
theorem modifyReq_state (s : DramCtrl) (r : ℕ) (st : MemReqState) (i : ℕ) :
    ∃ st', (s.modifyReq r fun req => { req with state := st }).reqs i =
      { s.reqs i with state := st' } := by
  by_cases hi : i = r
  · subst hi
    exact ⟨st, Function.update_self ..⟩
  · exact ⟨(s.reqs i).state, Function.update_of_ne hi _ _⟩

/-- An arrival leaves the output alone. -/
theorem sameOutput_arrive (s : DramCtrl) (req : DramReq) : SameOutput s (s.arrive req) := by
  refine .of_reqs ?_ le_rfl rfl rfl rfl rfl rfl rfl rfl
  intro r hr
  have hreq : (s.arrive req).reqs r = s.reqs r :=
    Function.update_of_ne (Nat.ne_of_lt hr) _ _
  rw [hreq]
  exact ⟨rfl, rfl, rfl⟩

/-- A prefetch that is adjusted to anything but a write-back leaves the output alone. -/
theorem sameOutput_adjustReq {req : DramReq} (hold : (s.reqs r).type = .dprf)
    (hnew : req.type ≠ .wb) : SameOutput s (s.adjustReq r req) := by
  have hother (i : ℕ) (hi : i ≠ r) : (s.adjustReq r req).reqs i = s.reqs i := by
    unfold DramCtrl.adjustReq
    dsimp only
    split <;> exact Function.update_of_ne hi _ _
  have hself : (s.adjustReq r req).reqs r =
      { req with
        state := (s.reqs r).state, rdyCycle := (s.reqs r).rdyCycle
        msgType := (s.reqs r).msgType } := by
    unfold DramCtrl.adjustReq
    dsimp only
    split <;> exact Function.update_self ..
  have hrc : (s.adjustReq r req).reclassified =
      if (s.reqs r).acc = req.acc then s.reclassified else s.reclassified ++ [r] := by
    unfold DramCtrl.adjustReq
    dsimp only
    split <;> rfl
  have hrest : (s.adjustReq r req).cycle = s.cycle ∧
      (s.adjustReq r req).outputBuffer = s.outputBuffer ∧
      (s.adjustReq r req).tmpOutputBuffer = s.tmpOutputBuffer ∧
      (s.adjustReq r req).flushed = s.flushed ∧ (s.adjustReq r req).retired = s.retired ∧
      (s.adjustReq r req).completed = s.completed ∧ (s.adjustReq r req).sent = s.sent := by
    unfold DramCtrl.adjustReq
    dsimp only
    split <;> exact ⟨rfl, rfl, rfl, rfl, rfl, rfl, rfl⟩
  obtain ⟨hcy, hout, htmp, hfl, hre, hco, hse⟩ := hrest
  refine ⟨?_, ?_, ?_, hcy.ge, hout, htmp, hfl, hre, hco, hse⟩
  · by_cases hacc : (s.reqs r).acc = req.acc
    · refine ⟨fun _ => true, fun g i _ => ?_⟩
      rw [steady, steady, hrc, if_pos hacc, Bool.and_true]
      by_cases hi : i = r
      · subst hi
        rw [hself, hacc]
      · rw [hother i hi]
    · -- a request that changes its kind drops out of both sides of the order
      refine ⟨fun i => i ≠ r, fun g i _ => ?_⟩
      rw [steady, steady, hrc, if_neg hacc]
      by_cases hi : i = r
      · subst hi
        simp
      · rw [hother i hi]
        simp [hi]
  · intro i _
    by_cases hi : i = r
    · subst hi
      rw [hself, hold]
      exact ⟨fun h => absurd h hnew, fun h => nomatch h⟩
    · rw [hother i hi]
  · intro i _
    by_cases hi : i = r
    · subst hi
      rw [hself]
    · rw [hother i hi]

/-- Adjusting a request leaves the accepted, the incoming and the arrived ones alone. -/
theorem adjustReq_rest (s : DramCtrl) (r : ℕ) (req : DramReq) :
    (s.adjustReq r req).accepted = s.accepted ∧ (s.adjustReq r req).incoming = s.incoming ∧
      (s.adjustReq r req).arrived = s.arrived := by
  unfold DramCtrl.adjustReq
  dsimp only
  split <;> exact ⟨rfl, rfl, rfl⟩

/-- With the same arrivals and the same output, the same requests are outside the banks. -/
theorem outside_sameOutput (hin : s'.incoming = s.incoming) (h : SameOutput s s') :
    outside s' = outside s :=
  outside_congr hin h.tmpOutputBuffer h.outputBuffer h.flushed h.retired h.sent

/-- The outside is not touched by a move. -/
theorem served_quiet (h : Served k s) (hs : SameOutput s s') (hacc : s'.accepted = s.accepted)
    (hin : s'.incoming = s.incoming) (harr : s'.arrived = s.arrived)
    (hbanks : inBanks k s' = inBanks k s) : Served k s' :=
  ⟨h.1.congr hacc hin harr (outside_sameOutput hin hs) hbanks, h.2.congr h.1.bounded hs⟩

/-- An arrival keeps the service. -/
theorem served_arrive (h : Served k s) (req : DramReq) : Served k (s.arrive req) := by
  refine ⟨⟨?_, ?_⟩, h.2.congr h.1.bounded (sameOutput_arrive s req)⟩
  · show s.accepted ++ (s.incoming ++ [s.arrived]) = List.range (s.arrived + 1)
    rw [← List.append_assoc, h.1.fifo, List.range_succ]
  · have hbanks : inBanks k (s.arrive req) = inBanks k s :=
      inBanks_sameBanks (by constructor <;> rfl)
    rw [hbanks]
    show _ = Multiset.range (s.arrived + 1)
    rw [Multiset.range_succ, ← h.1.books, ← Multiset.singleton_add]
    simp only [outside, DramCtrl.arrive, ← Multiset.coe_add, Multiset.coe_singleton]
    abel

/-- Accepting a request keeps the service. -/
theorem served_accept {rest : List ℕ} {free : List DrbId} (hT : Tidy k s) (h : Served k s)
    (hin : s.incoming = r :: rest)
    (hfree : s.bufferFreeList (k.map.parseAddr k.bankXorIndex (s.reqs r).addr).bid.toNat =
      e :: free) : Served k (acceptReq k s r rest e free) := by
  refine ⟨⟨?_, ?_⟩, h.2.congr h.1.bounded ?_⟩
  · show (s.accepted ++ [r]) ++ rest = List.range s.arrived
    rw [← h.1.fifo, hin, List.append_assoc]
    rfl
  · rw [inBanks_acceptReq hT hfree]
    show _ = Multiset.range s.arrived
    rw [← h.1.books, ← Multiset.singleton_add]
    simp only [outside, hin, acceptReq, DramCtrl.insertReqInDrb, DramCtrl.modifyReq,
      DramCtrl.modifyEntry, ← Multiset.cons_coe, ← Multiset.singleton_add]
    abel
  · exact .of_states (modifyReq_state _ r .dramStart) le_rfl rfl rfl rfl rfl rfl rfl rfl

/-- Flushing a buffered prefetch keeps the service. -/
theorem served_flush (hT : Tidy k s) (h : Served k s) (hb : b < k.numBank)
    (he : e ∈ s.buffer b) (hr : (s.entry e).req = some r) (ht : (s.reqs r).type = .dprf) :
    Served k (flushReq s b e r) := by
  refine ⟨h.1.leave (r := r) rfl rfl rfl ?_ ?_, h.2.flushReq ht⟩
  · rw [← Multiset.singleton_add]
    simp only [outside, flushReq, List.map_append, List.map_cons, List.map_nil,
      ← Multiset.coe_add, Multiset.coe_singleton]
    abel
  · exact inBanks_release hT hb he hr inUse_flushReq fun _ _ => rfl

/-- Merging a buffered request keeps the service. -/
theorem served_merge {finish : ℕ} (hT : Tidy k s) (h : Served k s) (hb : b < k.numBank)
    (he : e ∈ s.buffer b) (hr : (s.entry e).req = some r) (hf : finish ≤ s.cycle) :
    Served k ((s.retire k finish r).releaseEntry b e) := by
  obtain ⟨hacc, hin, harr⟩ := retire_rest (k := k) s finish r
  refine served_retire h (mem_inBanks hb (mem_inUse_of_buffer he) hr) hf ?_ hacc hin harr rfl ?_
    harr
  · refine inBanks_release hT hb he hr (inUse_merge finish) fun i hi => ?_
    show Function.update (s.retire k finish r).entry e _ i = _
    rw [Function.update_of_ne hi, (sameBanks_retire s finish r).entry]
  · exact .of_states (fun i => ⟨_, rfl⟩) le_rfl rfl rfl rfl rfl rfl rfl rfl

/-- Finishing the current entry of a bank keeps the service. -/
theorem served_finish {finish : ℕ} (hT : Tidy k s) (h : Served k s) (hb : b < k.numBank)
    (he : s.currentList b = some e) (hr : (s.entry e).req = some r) (hf : finish ≤ s.cycle) :
    Served k (finishEntry k s b e finish r) := by
  obtain ⟨hacc, hin, harr⟩ := retire_rest (k := k) s finish r
  refine served_retire h (mem_inBanks hb (mem_inUse_of_current he) hr) hf
    (inBanks_finishEntry hT hb he hr) hacc hin harr rfl ?_ harr
  exact .of_states (fun i => ⟨_, rfl⟩) le_rfl rfl rfl rfl rfl rfl rfl rfl

/-- Sending requests keeps the service. -/
theorem served_send (h : Served k s) (accepts : ℕ → Bool) : Served k (s.send k accepts) := by
  have hbanks := inBanks_sameBanks (k := k) (sameBanks_send (k := k) s accepts)
  have hnodup := h.1.nodup_outputs
  have hn : s.outputBuffer.Nodup :=
    (List.nodup_append.mp (List.nodup_append.mp hnodup).1).2.1
  obtain ⟨out, t, hout, hpre, heq⟩ := send_spec (k := k) s accepts
  rw [heq] at hbanks ⊢
  refine ⟨h.1.congr hout.accepted hout.incoming hout.arrived ?_ hbanks, h.2.sent hn hout hpre⟩
  exact outside_sent hn hout hpre

/-- Each move keeps the service. -/
theorem served_move (hT : Tidy k s) (h : Served k s) (hm : DramMove k s s') : Served k s' := by
  cases hm with
  | count | tick =>
      refine served_quiet h (.of_states (fun i => ⟨_, rfl⟩) ?_ rfl rfl rfl rfl rfl rfl rfl) rfl rfl
        rfl (inBanks_congr fun b _ => rfl)
      first
        | exact le_rfl
        | exact Nat.le_succ _
  | mark r st =>
      exact served_quiet h (.of_states (modifyReq_state s r st) le_rfl rfl rfl rfl rfl rfl rfl rfl)
        rfl rfl rfl (inBanks_sameBanks (sameBanks_modifyReq s r _))
  | arrive req => exact served_arrive h req
  | adjust r req _ hold hnew =>
      obtain ⟨hacc, hin, harr⟩ := adjustReq_rest s r req
      exact served_quiet h (sameOutput_adjustReq hold hnew) hacc hin harr
        (inBanks_sameBanks (sameBanks_adjustReq s r req))
  | accept r rest e free hin hfree => exact served_accept hT h hin hfree
  | flush b e r hb he hr ht => exact served_flush hT h hb he hr ht
  | merge b e finish r hb he hr hf => exact served_merge hT h hb he hr hf
  | finish b e finish r hb he hr _ hf => exact served_finish hT h hb he hr hf
  | select b e buffer _ hc hp he =>
      exact served_quiet h (.of_states (fun i => ⟨_, rfl⟩) le_rfl rfl rfl rfl rfl rfl rfl rfl)
        rfl rfl rfl (inBanks_selectEntry hT hc hp he)
  | wake b e => exact served_sameTraffic h (sameTraffic_wakeEntry s b e)
  | command b e => exact served_sameTraffic h (sameTraffic_issueCommand s b e)
  | transfer ii b e => exact served_sameTraffic h (sameTraffic_transfer s ii b e)
  | delay hd =>
      have hn := (List.nodup_append.mp h.1.nodup_outputs).2.1
      refine ⟨h.1.congr rfl rfl rfl (outside_delayPacket hn) ?_, h.2.delayPacket hd hn⟩
      exact inBanks_sameBanks (by constructor <;> rfl)
  | send accepts => exact served_send h accepts

/-- The service holds when the controller starts. -/
theorem served_new (completed starvation : ℤ) (reqs : ℕ → DramReq) :
    Served k (DramCtrl.new k completed starvation reqs) := by
  refine ⟨⟨rfl, ?_⟩, ?_⟩
  · have hbanks : inBanks k (DramCtrl.new k completed starvation reqs) = 0 :=
      Finset.sum_eq_zero fun b _ => rfl
    rw [hbanks]
    rfl
  · constructor <;> simp [DramCtrl.new, queued]

/-- The service holds in every reachable controller. -/
theorem reachable_served (h : s.Reachable k) : Served k s :=
  (reachable_induction served_new (fun _ _ hT hs hm => served_move hT hs hm) h).2

/-! ## The result -/

/-- The places in which an accepted request can be, counted together. -/
def holdings (k : DramKnobs) (s : DramCtrl) (r : ℕ) : ℕ :=
  (inBanks k s).count r + s.tmpOutputBuffer.count r + s.outputBuffer.count r

/-- The ways in which a request can have left, counted together: flushed, freed on completion
or sent. -/
def departures (s : DramCtrl) (r : ℕ) : ℕ :=
  (s.flushed.map (·.1)).count r + s.retired.count r + (s.sent.map (·.req)).count r

/-- An accepted request is held once or has left once. -/
theorem Account.count_accepted (h : Account k s) (hr : r ∈ s.accepted) :
    holdings k s r + departures s r = 1 := by
  have hsplit : (s.accepted ++ s.incoming).Nodup := by
    rw [h.fifo]
    exact List.nodup_range
  have hin : r ∉ s.incoming := fun hin =>
    (List.nodup_append.mp hsplit).2.2 r hr r hin rfl
  have hlt : r ∈ List.range s.arrived := by
    rw [← h.fifo]
    exact List.mem_append_left _ hr
  have hcount : (outside s + inBanks k s).count r = 1 := by
    rw [h.books]
    exact Multiset.count_eq_one_of_mem (Multiset.nodup_range _) hlt
  simp only [outside, Multiset.count_add, Multiset.coe_count,
    List.count_eq_zero_of_not_mem hin] at hcount
  rw [holdings, departures]
  omega

/-- In every run, a request that the controller accepted is held in one place or has left
once: a write-back was freed on completion, a flushed request was a prefetch, and a request
that was sent had finished its transfer the additional latency before.  The requests of one
kind are sent in the order of their completion. -/
theorem exactly_once_service (k : DramKnobs) (s : DramCtrl) (h : s.Reachable k) :
    s.accepted ++ s.incoming = List.range s.arrived ∧
    (∀ r ∈ s.accepted, holdings k s r + departures s r = 1) ∧
    (∀ r ∈ s.retired, (s.reqs r).type = .wb) ∧
    (∀ p ∈ s.flushed, p.2 = .dprf ∧ (s.reqs p.1).type ≠ .wb) ∧
    (∀ m ∈ s.sent, (s.reqs m.req).type ≠ .wb ∧
      ∃ c ∈ s.completed, c.req = m.req ∧ c.finish + k.additionalLatency ≤ m.cycle) ∧
    ∀ g, (queued s).filter (steady s g) = (s.completed.map (·.req)).filter (steady s g) := by
  obtain ⟨hA, hO⟩ := reachable_served h
  refine ⟨hA.fifo, fun r hr => hA.count_accepted hr, hO.wb, hO.prefetch, ?_, hO.order⟩
  intro m hm
  have hqueued : m.req ∈ queued s :=
    List.mem_append_left _ (List.mem_append_left _ (List.mem_map_of_mem hm))
  obtain ⟨c, hc, hcm⟩ := List.mem_map.mp (hO.done.mem_iff.mpr hqueued)
  refine ⟨?_, c, hc, hcm, ?_⟩
  · rw [← hcm]
    exact hO.data c hc
  · have hlate := hO.late c hc
    have hgone := hO.gone m hm c hc hcm
    omega

/-- A run in which a fetch is sent and a write-back is freed. -/
theorem exactly_once_service_small : ∃ s : DramCtrl, s.Reachable smallDram ∧
    (s.sent.map (·.req), s.retired, s.accepted) = ([0], [1], [0, 1, 2]) ∧
    ∀ r ∈ s.accepted, holdings smallDram s r + departures s r = 1 := by
  obtain ⟨s, hs, hx⟩ := DramCtrl.reachable_run smallDram
    ([.arrive (lineReq 0 .dfetch false), .arrive (lineReq 4096 .wb false),
      .arrive (lineReq 128 .dfetch true)] ++ dramCycles 30)
    (fun _ => lineReq 0 .dfetch false)
    (fun s => (s.sent.map (·.req), s.retired, s.accepted)) ([0], [1], [0, 1, 2])
    (by decide +kernel)
  exact ⟨s, hs, hx, (exactly_once_service smallDram s hs).2.1⟩

end MacSim.Analysis.Dram
