import MacSim.Model.PQueue
import MacSim.Computation.PriorityOrder

/-!
# Queues with latency and priority

The queue of lists is compared with a queue of entries that know when they came: an entry may
leave once the queue has moved on as often as its latency says, and of the entries that may leave
the one of the highest priority does, the oldest one among equals.

A flush puts the index of new entries one place behind the last list, so that nothing can be
entered any more.
-/

set_option autoImplicit false

namespace MacSim.Analysis

open MacSim.Model MacSim.Computation

/-! ## The queue as it is meant -/

/-- An entry with the number of entries and of moves before it. -/
structure Item (T : Type) where
  arrival : ℕ
  stamp : ℕ
  entry : PqueueEntry T

/-- What has been entered since the last flush, what of it is waiting and what was delivered. -/
structure LatencyQueue (T : Type) where
  latency : ℕ
  capacity : ℤ
  moves : ℕ
  entered : List (Item T)
  waiting : List (Item T)
  delivered : List (Item T)

namespace LatencyQueue

variable {T : Type}

def new (capacity : ℤ) (latency : ℕ) : LatencyQueue T where
  latency := latency
  capacity := capacity
  moves := 0
  entered := []
  waiting := []
  delivered := []

/-- Higher priorities come first. -/
def rank (x : Item T) : ℤ := -x.entry.priority

/-- The queue has moved on as often as the latency says since the entry came. -/
def isReady (s : LatencyQueue T) (x : Item T) : Bool := decide (x.stamp + s.latency ≤ s.moves)

/-- The entries that may leave. -/
def readyItems (s : LatencyQueue T) : List (Item T) := s.waiting.filter s.isReady

def enqueue (s : LatencyQueue T) (e : PqueueEntry T) : Option (LatencyQueue T) :=
  if (s.waiting.length : ℤ) < s.capacity then
    let x : Item T := ⟨s.entered.length, s.moves, e⟩
    some { s with entered := s.entered ++ [x], waiting := s.waiting ++ [x] }
  else none

/-- The best of the entries that may leave. -/
def dequeue (s : LatencyQueue T) : Option (LatencyQueue T × Item T) :=
  (firstMin rank s.readyItems).map fun x =>
    ({ s with
      waiting := s.waiting.eraseP fun y => isMin rank s.readyItems y && s.isReady y
      delivered := s.delivered ++ [x] }, x)

/-- The queue moves on, unless it is empty or an entry may leave. -/
def advance (s : LatencyQueue T) : LatencyQueue T :=
  if s.waiting.isEmpty || !s.readyItems.isEmpty then s else { s with moves := s.moves + 1 }

/-- The entries that may leave after `i` more moves. -/
def slot (s : LatencyQueue T) (i : ℕ) : List (Item T) :=
  s.waiting.filter fun x => decide (x.stamp + s.latency = s.moves + i)

/-- All entries in the order in which they leave when no other ones come. -/
def order (s : LatencyQueue T) : List (Item T) :=
  (List.range (s.latency + 1)).flatMap fun i => arranged rank (s.slot i)

def peek [Zero T] (s : LatencyQueue T) (entry : ℤ) : Option T :=
  if entry ≤ s.waiting.length then
    some (if entry < 0 then 0 else ((s.order[entry.toNat]?).map fun x => x.entry.data).getD 0)
  else none

def space (s : LatencyQueue T) : ℤ := s.capacity - s.waiting.length

def serve [Zero T] (s : LatencyQueue T) :
    PQueue.Call T → Option (LatencyQueue T × PQueue.Answer T)
  | .enqueue priority data => (s.enqueue ⟨priority, data⟩).map fun s' => (s', .done)
  | .dequeue => s.dequeue.map fun x => (x.1, .dequeued x.2.entry)
  | .advance => some (s.advance, .done)
  | .ready => some (s, .ready !s.readyItems.isEmpty)
  | .peek entry => (s.peek entry).map fun data => (s, .peeked data)
  | .space => some (s, .space s.space)
  | .flush => some (new s.capacity s.latency, .done)

/-! ## Its laws -/

/-- Nothing is lost or delivered twice, and what leaves has waited for its latency and comes
before all other entries of its slot, of a higher priority or older. -/
structure Lawful (s : LatencyQueue T) : Prop where
  once : (s.delivered ++ s.waiting).Perm s.entered
  numbered : ∀ i (h : i < s.entered.length), (s.entered.get ⟨i, h⟩).arrival = i
  sorted : s.waiting.Pairwise fun x y => x.arrival < y.arrival
  stamp : ∀ x ∈ s.waiting, x.stamp ≤ s.moves ∧ s.moves ≤ x.stamp + s.latency

/-- A new queue is lawful. -/
theorem lawful_new (capacity : ℤ) (latency : ℕ) :
    Lawful (new capacity latency : LatencyQueue T) where
  once := List.Perm.nil
  numbered := fun _ h => absurd h (Nat.not_lt_zero _)
  sorted := List.Pairwise.nil
  stamp := fun _ h => absurd h List.not_mem_nil

variable {s s' : LatencyQueue T} {x : Item T}

/-- The number of an entry is below the number of entries. -/
theorem Lawful.arrival_lt (h : Lawful s) (hx : x ∈ s.entered) : x.arrival < s.entered.length := by
  obtain ⟨⟨i, hi⟩, rfl⟩ := List.mem_iff_get.mp hx
  rw [h.numbered i hi]
  exact hi

/-- What waits has entered. -/
theorem Lawful.entered_of_waiting (h : Lawful s) (hx : x ∈ s.waiting) : x ∈ s.entered :=
  h.once.mem_iff.mp (List.mem_append_right _ hx)

/-- An entry keeps the queue lawful. -/
theorem Lawful.enqueue (h : Lawful s) (e : PqueueEntry T) (hs : s.enqueue e = some s') :
    Lawful s' := by
  unfold LatencyQueue.enqueue at hs
  split at hs
  swap
  · cases hs
  cases hs
  refine ⟨?_, fun i hi => ?_, ?_, fun x hx => ?_⟩
  · dsimp only
    rw [← List.append_assoc]
    exact h.once.append_right _
  · dsimp only at hi ⊢
    rcases Nat.lt_or_ge i s.entered.length with hlt | hge
    · rw [List.get_eq_getElem, List.getElem_append_left hlt]
      exact h.numbered i hlt
    · rw [List.length_append, List.length_singleton] at hi
      obtain rfl : i = s.entered.length := by omega
      rw [List.get_eq_getElem, List.getElem_concat_length rfl]
  · refine List.pairwise_append.mpr ⟨h.sorted, List.pairwise_singleton _ _, fun x hx y hy => ?_⟩
    rw [List.mem_singleton.mp hy]
    exact h.arrival_lt (h.entered_of_waiting hx)
  · rcases List.mem_append.mp hx with hx | hx
    · exact h.stamp x hx
    · rw [List.mem_singleton.mp hx]
      exact ⟨le_rfl, Nat.le_add_right _ _⟩

/-- A cycle keeps the queue lawful. -/
theorem Lawful.advance (h : Lawful s) : Lawful s.advance := by
  unfold LatencyQueue.advance
  split
  · exact h
  · next hmoves =>
    rw [Bool.or_eq_true, not_or, Bool.not_eq_true', Bool.not_eq_false] at hmoves
    refine ⟨h.once, h.numbered, h.sorted, fun x hx => ?_⟩
    have hstamp := h.stamp x hx
    have hnot := List.filter_eq_nil_iff.mp (List.isEmpty_iff.mp hmoves.2) x hx
    unfold isReady at hnot
    rw [decide_eq_true_eq] at hnot
    dsimp only
    omega

/-- Taking the first minimum away. -/
theorem perm_of_dequeue (hx : firstMin rank s.readyItems = some x) :
    (x :: s.waiting.eraseP fun y => isMin rank s.readyItems y && s.isReady y).Perm s.waiting := by
  have hfind : s.waiting.find? (fun y => isMin rank s.readyItems y && s.isReady y) = some x := by
    have hfilter : s.readyItems.find? (isMin rank s.readyItems) = _ := List.find?_filter
    refine Eq.trans (List.find?_congr fun y _ => ?_) (hfilter.symm.trans hx)
    rw [Bool.and_comm, Bool.decide_and, Bool.decide_eq_true, Bool.decide_eq_true]
  obtain ⟨hsome, before, behind, hsplit, hbefore⟩ := List.find?_eq_some_iff_append.mp hfind
  have hnot : ∀ y ∈ before, ¬ (isMin rank s.readyItems y && s.isReady y) = true :=
    fun y hy => Bool.eq_false_iff.mp (Bool.not_eq_true' _ |>.mp (hbefore y hy))
  rw [hsplit, List.eraseP_append_right _ hnot, List.eraseP_cons, hsome]
  exact List.perm_middle.symm

/-- A departure keeps the queue lawful. -/
theorem Lawful.dequeue (h : Lawful s) (hs : s.dequeue = some (s', x)) : Lawful s' := by
  obtain ⟨y, hy, heq⟩ := Option.map_eq_some_iff.mp hs
  cases heq
  have hsub := List.eraseP_sublist (l := s.waiting)
    (p := fun y => isMin rank s.readyItems y && s.isReady y)
  refine ⟨?_, h.numbered, h.sorted.sublist hsub, fun y hy => h.stamp y (hsub.subset hy)⟩
  dsimp only
  rw [List.append_assoc, List.singleton_append]
  exact ((perm_of_dequeue hy).append_left s.delivered).trans h.once

/-- What leaves has waited for its latency, and it comes before all other entries of its slot. -/
theorem Lawful.dequeue_first (h : Lawful s) (hs : s.dequeue = some (s', x)) :
    x ∈ s.waiting ∧ x.stamp + s.latency ≤ s.moves ∧
      ∀ y ∈ s.waiting, y.stamp = x.stamp → y ≠ x → y.entry.priority < x.entry.priority ∨
        y.entry.priority = x.entry.priority ∧ x.arrival < y.arrival := by
  obtain ⟨z, hz, heq⟩ := Option.map_eq_some_iff.mp hs
  cases heq
  have hmem := (firstMin_eq_some hz).1
  obtain ⟨hwaiting, hready⟩ := List.mem_filter.mp hmem
  have hstamp : x.stamp + s.latency ≤ s.moves := of_decide_eq_true hready
  refine ⟨hwaiting, hstamp, fun y hy hsame hne => ?_⟩
  have hyready : y ∈ s.readyItems :=
    List.mem_filter.mpr ⟨hy, decide_eq_true (hsame ▸ hstamp)⟩
  rcases firstMin_before (h.sorted.filter _) hz hyready hne with hless | ⟨hsame, harrival⟩
  · unfold rank at hless
    exact Or.inl (by omega)
  · unfold rank at hsame
    exact Or.inr ⟨by omega, harrival⟩

/-- Every call keeps the queue lawful. -/
theorem Lawful.serve [Zero T] (h : Lawful s) {call : PQueue.Call T} {answer : PQueue.Answer T}
    (hs : s.serve call = some (s', answer)) : Lawful s' := by
  cases call with
  | enqueue priority data =>
      obtain ⟨t, ht, heq⟩ := Option.map_eq_some_iff.mp hs
      cases heq
      exact h.enqueue _ ht
  | dequeue =>
      obtain ⟨t, ht, heq⟩ := Option.map_eq_some_iff.mp hs
      cases heq
      exact h.dequeue ht
  | advance =>
      cases hs
      exact h.advance
  | ready =>
      cases hs
      exact h
  | peek entry =>
      obtain ⟨t, ht, heq⟩ := Option.map_eq_some_iff.mp hs
      cases heq
      exact h
  | space =>
      cases hs
      exact h
  | flush =>
      cases hs
      exact lawful_new _ _

/-- No number is given twice. -/
theorem Lawful.arrivals_nodup (h : Lawful s) : (s.entered.map Item.arrival).Nodup := by
  have hrange : s.entered.map Item.arrival = List.range s.entered.length := by
    refine List.ext_getElem (by simp) fun i hi _ => ?_
    rw [List.getElem_map, List.getElem_range]
    exact h.numbered i (by simpa using hi)
  rw [hrange]
  exact List.nodup_range

/-- A cycle changes neither the capacity nor the latency. -/
theorem advance_params : s.advance.capacity = s.capacity ∧ s.advance.latency = s.latency := by
  unfold LatencyQueue.advance
  split <;> exact ⟨rfl, rfl⟩

/-- The latency and the capacity stay. -/
theorem serve_params [Zero T] {call : PQueue.Call T} {answer : PQueue.Answer T}
    (hs : s.serve call = some (s', answer)) :
    s'.capacity = s.capacity ∧ s'.latency = s.latency := by
  cases call with
  | enqueue priority data =>
      obtain ⟨t, ht, heq⟩ := Option.map_eq_some_iff.mp hs
      cases heq
      unfold LatencyQueue.enqueue at ht
      split at ht
      · cases ht
        exact ⟨rfl, rfl⟩
      · cases ht
  | dequeue =>
      obtain ⟨t, ht, heq⟩ := Option.map_eq_some_iff.mp hs
      cases heq
      obtain ⟨_, _, heq⟩ := Option.map_eq_some_iff.mp ht
      rw [← heq]
      exact ⟨rfl, rfl⟩
  | advance =>
      cases hs
      exact advance_params
  | ready =>
      cases hs
      exact ⟨rfl, rfl⟩
  | peek entry =>
      obtain ⟨t, ht, heq⟩ := Option.map_eq_some_iff.mp hs
      cases heq
      exact ⟨rfl, rfl⟩
  | space =>
      cases hs
      exact ⟨rfl, rfl⟩
  | flush =>
      cases hs
      exact ⟨rfl, rfl⟩

end LatencyQueue

end MacSim.Analysis
