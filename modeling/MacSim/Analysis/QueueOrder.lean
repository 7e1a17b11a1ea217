import MacSim.Computation.StableQueue
import MacSim.Analysis.MemFine
import MacSim.Model.Constructed
import MacSim.Model.RequestQueue
import Mathlib.Data.Prod.Lex

/-!
# The order of the request queues

The comparison of a queue is one of keys: the preference between CPU and GPU requests that the
knobs ask for, then the priority, the larger one first.  The sort behind every insertion is stable.
So a queue is sorted by these keys after any calls, and requests with the same key stand in
the order of their arrival.
-/

set_option autoImplicit false

namespace MacSim.Analysis

open MacSim.Model MacSim.Computation

variable {k : MemKnobs} {q : QueueC} {size : ℕ} {waiting : List ReqId} {r : ReqId}

/-! ## The comparison -/

/-- The preference that the knobs ask for; the smaller number goes first.  The CPU knob overrides
the GPU knob. -/
def preference (k : MemKnobs) (req : MemReq) : ℕ :=
  if k.heteroMemPriorityCpu then (if req.acc then 1 else 0)
  else if k.heteroMemPriorityGpu then (if req.acc then 0 else 1)
  else 0

/-- A request may stand in front of another one: it is preferred, or neither is and its priority
is not smaller. -/
def GoesFirst (k : MemKnobs) (a b : MemReq) : Prop :=
  preference k a < preference k b ∨
    (preference k a = preference k b ∧ b.priority ≤ a.priority)

/-- Two requests are equal in preference and priority. -/
def sameRank (k : MemKnobs) (a b : MemReq) : Bool :=
  decide (preference k a = preference k b) && decide (a.priority = b.priority)

/-- The key of a request. -/
def requestKey (k : MemKnobs) (req : MemReq) : ℕ ×ₗ ℕᵒᵈ :=
  toLex (preference k req, OrderDual.toDual req.priority.toNat)

/-- The key orders two requests as the source's comparison does. -/
theorem requestKey_le_iff (a b : MemReq) : requestKey k a ≤ requestKey k b ↔ GoesFirst k a b := by
  unfold requestKey GoesFirst
  rw [Prod.Lex.toLex_le_toLex]
  exact or_congr_right (and_congr_right fun _ => OrderDual.toDual_le_toDual.trans BitVec.le_def.symm)

/-- Two requests have the same key exactly when the comparison does not separate them. -/
theorem requestKey_eq_iff (a b : MemReq) : requestKey k a = requestKey k b ↔ sameRank k a b = true := by
  unfold requestKey sameRank
  simp [BitVec.toNat_inj]

/-- The comparison of the queue is the one of the keys. -/
theorem sortFunc_iff (a b : MemReq) : Mem.sortFunc k b a = false ↔ requestKey k a ≤ requestKey k b := by
  rw [requestKey_le_iff]
  unfold Mem.sortFunc GoesFirst preference
  cases k.heteroMemPriorityCpu <;> cases k.heteroMemPriorityGpu <;> cases a.acc <;>
    cases b.acc <;> simp

/-! ## Runs -/

/-- What may happen to a queue, with the arrivals that are still in it: calls of `push` and `pop`,
and writes to requests that leave the priority and the side of the queued ones alone. -/
inductive QueueRun (k : MemKnobs) (size : ℕ) : QueueC → List ReqId → Prop
  | new (this : QueueId) (req : ReqId → MemReq) : QueueRun k size (QueueC.new this size req) []
  | push {q : QueueC} {waiting : List ReqId} (h : QueueRun k size q waiting) (r : ReqId) :
      QueueRun k size (q.push k r).1 (if (q.push k r).2 then waiting ++ [r] else waiting)
  | pop {q : QueueC} {waiting : List ReqId} (h : QueueRun k size q waiting) (r : ReqId) :
      QueueRun k size (q.pop r) (waiting.filter (· ≠ r))
  | write {q : QueueC} {waiting : List ReqId} (h : QueueRun k size q waiting)
      (req : ReqId → MemReq)
      (hsame : ∀ r ∈ q.entry, (req r).priority = (q.req r).priority ∧ (req r).acc = (q.req r).acc) :
      QueueRun k size { q with req := req } waiting

/-- A run keeps the size of the queue. -/
theorem QueueRun.size_eq (h : QueueRun k size q waiting) : q.size = size := by
  induction h with
  | new this req => rfl
  | push h r ih =>
      unfold QueueC.push
      split
      · exact ih
      · exact ih
  | pop h r ih => exact ih
  | write h req hsame ih => exact ih

/-- A refused call changes nothing. -/
theorem push_refused_eq (h : (q.push k r).2 = false) :
    q.entry.length = q.size ∧ (q.push k r).1 = q := by
  unfold QueueC.push at h ⊢
  split at h
  · rename_i hfull
    rw [if_pos hfull]
    exact ⟨of_decide_eq_true hfull, rfl⟩
  · cases h

/-- An accepted call puts the request at the end and sorts. -/
theorem push_accepted (h : (q.push k r).2 = true) :
    q.entry.length ≠ q.size ∧
      (q.push k r).1.entry =
        (q.entry ++ [r]).insertionSort fun a b =>
          Mem.sortFunc k ((q.push k r).1.req b) ((q.push k r).1.req a) = false := by
  unfold QueueC.push at h ⊢
  split at h
  · cases h
  · rename_i hroom
    rw [if_neg hroom]
    exact ⟨fun hlen => hroom (decide_eq_true hlen), rfl⟩

/-- `push` writes the queue of the new request, and no key. -/
theorem requestKey_push (x : ReqId) : requestKey k ((q.push k r).1.req x) = requestKey k (q.req x) := by
  unfold QueueC.push
  split
  · rfl
  · by_cases hx : x = r
    · subst hx
      simp [QueueC.sort, requestKey, preference]
    · simp [QueueC.sort, hx]

/-- The queue never holds more than its size. -/
theorem QueueRun.length_le (h : QueueRun k size q waiting) : q.entry.length ≤ size := by
  induction h with
  | new this req => exact Nat.zero_le size
  | push h r ih =>
      rename_i q waiting
      cases hok : (q.push k r).2 with
      | false =>
          rw [(push_refused_eq hok).2]
          exact ih
      | true =>
          obtain ⟨hroom, heq⟩ := push_accepted hok
          rw [heq, List.length_insertionSort, List.length_append, List.length_singleton]
          rw [h.size_eq] at hroom
          omega
  | pop h r ih => exact (List.length_filter_le _ _).trans ih
  | write h req hsame ih => exact ih

/-- After every run the queue is in the order of the keys, equal ones as they arrived. -/
theorem QueueRun.inOrder (h : QueueRun k size q waiting) :
    InOrder (fun r => requestKey k (q.req r)) waiting q.entry := by
  induction h with
  | new this req => exact InOrder.nil _
  | push h r ih =>
      rename_i q waiting
      have hkept : InOrder (fun x => requestKey k ((q.push k r).1.req x)) waiting q.entry :=
        ih.congr fun x _ => requestKey_push x
      cases hok : (q.push k r).2 with
      | false =>
          rw [(push_refused_eq hok).2] at hkept ⊢
          exact hkept
      | true =>
          rw [if_pos rfl, (push_accepted hok).2]
          exact hkept.push (fun a b => sortFunc_iff _ _) r
  | pop h r ih => exact ih.filter _
  | write h req hsame ih =>
      refine ih.congr fun x hx => ?_
      obtain ⟨hpriority, hacc⟩ := hsame x hx
      unfold requestKey preference
      rw [hpriority, hacc]

/-- The request that `search` finds for some bytes may stand in front of every other one that
covers them. -/
theorem QueueRun.search_first (h : QueueRun k size q waiting) {addr : Addr} {n : ℕ}
    (hfind : q.search addr n = some r) {x : ReqId} (hx : x ∈ q.entry)
    (hcovers : (q.req x).covers addr n = true) : GoesFirst k (q.req r) (q.req x) := by
  obtain ⟨-, before, behind, hsplit, hbefore⟩ := List.find?_eq_some_iff_append.mp hfind
  have hsorted := h.inOrder.sorted
  rw [hsplit] at hx hsorted
  rcases List.mem_append.mp hx with hx | hx
  · have hnot := hbefore x hx
    rw [hcovers] at hnot
    cases hnot
  · apply (requestKey_le_iff _ _).mp
    rcases List.mem_cons.mp hx with rfl | hx
    · exact le_rfl
    · exact (List.pairwise_cons.mp (List.pairwise_append.mp hsorted).2.1).1 x hx

/-! ## The queues of the memory system -/

/-- `push` of the memory system is that of its queue. -/
theorem queueC_push (cfg : MemConfig) (s : Mem) (q : QueueId) (r : ReqId) :
    (((s.push cfg q r).1.queueC q), (s.push cfg q r).2) = (s.queueC q).push cfg.knobs r := by
  unfold Mem.push QueueC.push
  have hfull : (s.queueC q).full = s.full q := rfl
  rw [hfull]
  split
  · rfl
  · unfold Mem.queueC
    rw [entries_setEntries, if_pos rfl]
    rfl

/-- `pop` of the memory system is that of its queue. -/
theorem queueC_pop (s : Mem) (q : QueueId) (r : ReqId) :
    (s.pop q r).queueC q = (s.queueC q).pop r := by
  unfold Mem.pop Mem.queueC
  rw [entries_setEntries, if_pos rfl]
  rfl

/-! ## The order -/

/-- After any calls and any settings of the knobs a queue holds at most its capacity, is sorted by
preference and priority, and keeps requests that are equal in both in the order of arrival; a call
of `push` fails exactly on a full queue, and then changes nothing. -/
theorem request_queue_ordered (k : MemKnobs) (size : ℕ) (q : QueueC) (waiting : List ReqId)
    (h : QueueRun k size q waiting) :
    q.entry.length ≤ size ∧
      q.entry.Pairwise (fun a b => GoesFirst k (q.req a) (q.req b)) ∧
      (∀ r, q.entry.filter (fun x => sameRank k (q.req x) (q.req r)) =
        waiting.filter fun x => sameRank k (q.req x) (q.req r)) ∧
      ∀ r, ((q.push k r).2 = false ↔ q.entry.length = size) ∧
        ((q.push k r).2 = false → (q.push k r).1 = q) := by
  have horder := h.inOrder
  refine ⟨h.length_le, ?_, fun r => ?_, fun r => ⟨?_, fun hno => (push_refused_eq hno).2⟩⟩
  · exact horder.sorted.imp fun hab => (requestKey_le_iff _ _).mp hab
  · have hclass : ∀ x, sameRank k (q.req x) (q.req r) =
        decide (requestKey k (q.req x) = requestKey k (q.req r)) := fun x =>
      Bool.eq_iff_iff.mpr ((requestKey_eq_iff _ _).symm.trans decide_eq_true_iff.symm)
    simp only [hclass]
    exact horder.stable (requestKey k (q.req r))
  · rw [← h.size_eq]
    constructor
    · exact fun hno => (push_refused_eq hno).1
    · intro hlen
      cases hok : (q.push k r).2 with
      | false => rfl
      | true => exact absurd hlen (push_accepted hok).1

/-- The knobs that prefer CPU requests. -/
def cpuFirst : MemKnobs :=
  { (Mem.smallConfig .llcDecoupledNetwork 1).knobs with heteroMemPriorityCpu := true }

/-- Requests of CPU cores, but request 0 is of a GPU core; request 1 is a prefetch. -/
def mixedReqs (r : ReqId) : MemReq :=
  { MemReq.fresh with
    acc := decide (r = .pool 0)
    priority := if r = .pool 1 then 0 else 10 }

/-- The requests 0 to 3 arrive, and the queue is full. -/
def fourPushed : QueueC :=
  ([0, 1, 2, 3].map ReqId.pool).foldl (fun q r => (q.push cpuFirst r).1)
    (QueueC.new ⟨⟨.l2, 0⟩, .inQueue⟩ 4 mixedReqs)

/-- Four requests of different kinds that fill a queue stand in order. -/
theorem request_queue_ordered_full :
    fourPushed.entry = [2, 3, 1, 0].map ReqId.pool ∧
      (fourPushed.entry.length ≤ 4 ∧
      fourPushed.entry.Pairwise
        (fun a b => GoesFirst cpuFirst (fourPushed.req a) (fourPushed.req b)) ∧
      (∀ r, fourPushed.entry.filter
          (fun x => sameRank cpuFirst (fourPushed.req x) (fourPushed.req r)) =
        ([0, 1, 2, 3].map ReqId.pool).filter
          fun x => sameRank cpuFirst (fourPushed.req x) (fourPushed.req r)) ∧
      ∀ r, ((fourPushed.push cpuFirst r).2 = false ↔ fourPushed.entry.length = 4) ∧
        ((fourPushed.push cpuFirst r).2 = false → (fourPushed.push cpuFirst r).1 = fourPushed)) :=
  ⟨rfl, request_queue_ordered cpuFirst 4 fourPushed _
    ((((QueueRun.new ⟨⟨.l2, 0⟩, .inQueue⟩ mixedReqs).push (.pool 0)).push (.pool 1)).push
      (.pool 2) |>.push (.pool 3))⟩

end MacSim.Analysis
