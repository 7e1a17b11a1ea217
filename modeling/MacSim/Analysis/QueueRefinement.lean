import MacSim.Analysis.LatencyQueue
import MacSim.Computation.Ring

/-!
# The ring of lists refines the queue with latency

The list that is `i` places behind the current one holds, in the order of their priorities, the
entries that may leave after `i` more moves.
-/

set_option autoImplicit false

namespace MacSim.Analysis

open MacSim.Model MacSim.Computation

namespace PQueue

variable {T : Type} {q q' : PQueue T} {s s' : LatencyQueue T}

/-- The lists of the ring are the slots of the queue. -/
structure Refines (q : PQueue T) (s : LatencyQueue T) : Prop where
  size : q.size = s.latency + 1
  capacity : q.capacity = s.capacity
  num : q.numEntry = s.waiting.length
  current : q.currentIndex < q.size
  slots : ∀ i ≤ s.latency, q.entry ((q.currentIndex + i) % q.size) =
    (arranged LatencyQueue.rank (s.slot i)).map Item.entry

/-- New entries go to the last list of the ring. -/
def AtLast (q : PQueue T) (s : LatencyQueue T) : Prop :=
  q.lastIndex = (q.currentIndex + s.latency) % q.size

/-- A new ring stands for a new queue. -/
theorem refines_new (capacity : ℤ) (latency : ℕ) :
    Refines (PQueue.new capacity latency : PQueue T) (LatencyQueue.new capacity latency) where
  size := rfl
  capacity := rfl
  num := rfl
  current := Nat.succ_pos _
  slots := fun _ _ => rfl

/-- In a new ring new entries go to the last list. -/
theorem atLast_new (capacity : ℤ) (latency : ℕ) :
    AtLast (PQueue.new capacity latency : PQueue T) (LatencyQueue.new capacity latency) := by
  change latency = (0 + latency) % (latency + 1)
  rw [Nat.zero_add, Nat.mod_eq_of_lt (Nat.lt_succ_self _)]

/-! ## Reading -/

/-- An entry may leave exactly if no more moves are needed. -/
theorem readyItems_eq (h : s.Lawful) : s.readyItems = s.slot 0 := by
  refine List.filter_congr fun x hx => ?_
  have hstamp := h.stamp x hx
  unfold LatencyQueue.isReady
  refine decide_eq_decide.mpr ?_
  omega

/-- The current list holds the entries that may leave. -/
theorem Refines.entry_current (h : Refines q s) (hs : s.Lawful) :
    q.entry q.currentIndex = (arranged LatencyQueue.rank s.readyItems).map Item.entry := by
  have hzero := h.slots 0 (Nat.zero_le _)
  rw [Nat.add_zero, Nat.mod_eq_of_lt h.current] at hzero
  rw [hzero, readyItems_eq hs]

/-- The current list is empty exactly when no item is ready. -/
theorem Refines.isEmpty_current (h : Refines q s) (hs : s.Lawful) :
    (q.entry q.currentIndex).isEmpty = s.readyItems.isEmpty := by
  rw [h.entry_current hs, List.isEmpty_map, Bool.eq_iff_iff, List.isEmpty_iff, List.isEmpty_iff,
    arranged_eq_nil]

/-- The ring is ready exactly when an item is. -/
theorem Refines.ready (h : Refines q s) (hs : s.Lawful) :
    q.ready = !s.readyItems.isEmpty := by
  unfold PQueue.ready
  rw [h.isEmpty_current hs]

/-- The lists, one behind the other, are the entries in the order in which they leave. -/
theorem Refines.counted (h : Refines q s) : q.counted = s.order.map Item.entry := by
  unfold PQueue.counted LatencyQueue.order
  rw [List.map_flatMap, h.size]
  refine List.flatMap_congr fun i hi => ?_
  rw [← h.size]
  exact h.slots i (Nat.lt_succ_iff.mp (List.mem_range.mp hi))

/-- Looking at an entry shows the same in both. -/
theorem Refines.peek [Zero T] (h : Refines q s) (entry : ℤ) : q.peek entry = s.peek entry := by
  unfold PQueue.peek LatencyQueue.peek
  rw [h.num, h.counted, List.getElem?_map, Option.map_map]
  rfl

/-- Both have the same space left. -/
theorem Refines.space (h : Refines q s) : q.space = s.space := by
  unfold PQueue.space LatencyQueue.space
  rw [h.capacity, h.num]

/-! ## Entering -/

/-- The loop puts a new entry behind those of its priority. -/
theorem insertEntry_map (x : Item T) (l : List (Item T)) :
    PQueue.insertEntry x.entry (l.map Item.entry) =
      (l.orderedInsert (fun x y => LatencyQueue.rank x < LatencyQueue.rank y) x).map
        Item.entry := by
  induction l with
  | nil => rfl
  | cons y l ih =>
      have hless : y.entry.priority < x.entry.priority ↔
          LatencyQueue.rank x < LatencyQueue.rank y := by
        unfold LatencyQueue.rank
        omega
      rw [List.map_cons, PQueue.insertEntry, ih, List.orderedInsert_cons]
      by_cases hlt : y.entry.priority < x.entry.priority
      · rw [if_pos hlt, if_pos (hless.mp hlt)]
        rfl
      · rw [if_neg hlt, if_neg (mt hless.mpr hlt)]
        rfl

/-- An entry that the queue takes is taken by the ring, which still stands for it. -/
theorem Refines.enqueue (h : Refines q s) (hlast : AtLast q s) {e : PqueueEntry T}
    (hs : s.enqueue e = some s') :
    ∃ q', q.enqueue e.priority e.data = some q' ∧ Refines q' s' ∧ AtLast q' s' := by
  unfold LatencyQueue.enqueue at hs
  split at hs
  swap
  · cases hs
  next hroom =>
  cases hs
  have hpos : 0 < q.size := Nat.zero_lt_of_lt h.current
  have hwithin : q.lastIndex < q.size := hlast ▸ Nat.mod_lt _ hpos
  have hroom' : q.numEntry < q.capacity := by rwa [h.num, h.capacity]
  refine ⟨_, if_pos ⟨hroom', hwithin⟩, ⟨h.size, h.capacity, ?_, h.current, fun i hi => ?_⟩, hlast⟩
  · change q.numEntry + 1 = ((s.waiting ++ [_]).length : ℤ)
    rw [h.num, List.length_append, List.length_singleton]
    push_cast
    rfl
  · change i ≤ s.latency at hi
    change Function.update q.entry q.lastIndex _ ((q.currentIndex + i) % q.size) = _
    have hslot : ∀ x : Item T, x.stamp = s.moves →
        List.filter (fun x : Item T => decide (x.stamp + s.latency = s.moves + i))
          (s.waiting ++ [x]) = if i = s.latency then s.slot i ++ [x] else s.slot i := by
      intro x hx
      rw [List.filter_append, List.filter_singleton]
      by_cases hi : i = s.latency
      · rw [if_pos hi, hx, hi, decide_eq_true rfl]
        rfl
      · have hne : ¬ x.stamp + s.latency = s.moves + i := by omega
        rw [if_neg hi, decide_eq_false hne]
        exact List.append_nil _
    by_cases hi' : i = s.latency
    · subst hi'
      rw [← hlast, Function.update_self, hlast, h.slots _ le_rfl]
      refine (insertEntry_map ⟨s.entered.length, s.moves, e⟩ _).trans ?_
      rw [← arranged_append]
      refine congrArg (fun l => (arranged LatencyQueue.rank l).map Item.entry) ?_
      exact ((hslot _ rfl).trans (if_pos rfl)).symm
    · have hne : (q.currentIndex + i) % q.size ≠ q.lastIndex := by
        intro heq
        rw [hlast] at heq
        have hsize := h.size
        exact hi' (add_mod_inj (by omega) (by omega) heq)
      rw [Function.update_of_ne hne, h.slots i hi]
      refine congrArg (fun l => (arranged LatencyQueue.rank l).map Item.entry) ?_
      exact ((hslot _ rfl).trans (if_neg hi')).symm

/-! ## Leaving -/

/-- Taking an element away that a filter does not keep. -/
theorem filter_eraseP {α : Type} {f p : α → Bool} {l : List α}
    (h : ∀ a ∈ l, p a = true → f a = false) : (l.eraseP p).filter f = l.filter f := by
  induction l with
  | nil => rfl
  | cons a l ih =>
      rw [List.eraseP_cons]
      cases hp : p a with
      | true =>
          rw [List.filter_cons, h a List.mem_cons_self hp]
          rfl
      | false =>
          rw [List.filter_cons, cond_false, List.filter_cons,
            ih fun b hb => h b (List.mem_cons_of_mem a hb)]

/-- A departure from the queue is one from the ring, which still stands for it. -/
theorem Refines.dequeue (h : Refines q s) (hlawful : s.Lawful) {x : Item T}
    (hs : s.dequeue = some (s', x)) :
    ∃ q', q.dequeue = some (q', x.entry) ∧ Refines q' s' ∧ q'.lastIndex = q.lastIndex ∧
      q'.currentIndex = q.currentIndex := by
  have hlawful' := hlawful.dequeue hs
  obtain ⟨y, hy, heq⟩ := Option.map_eq_some_iff.mp hs
  cases heq
  have hcurrent := h.entry_current hlawful
  cases harranged : arranged LatencyQueue.rank s.readyItems with
  | nil =>
      rw [arranged_eq_nil.mp harranged] at hy
      cases hy
  | cons z rest =>
      obtain ⟨hz, hrest⟩ := arranged_eq_cons harranged
      obtain rfl := Option.some.inj (hz.symm.trans hy)
      rw [harranged, List.map_cons] at hcurrent
      have hdequeue : q.dequeue = some ({ q with
          entry := Function.update q.entry q.currentIndex (rest.map Item.entry)
          numEntry := q.numEntry - 1 }, z.entry) := by
        unfold PQueue.dequeue
        rw [hcurrent]
      refine ⟨_, hdequeue, ⟨h.size, h.capacity, ?_, h.current, fun i hi => ?_⟩, rfl, rfl⟩
      · have hlength := (LatencyQueue.perm_of_dequeue hy).length_eq
        rw [List.length_cons] at hlength
        dsimp only
        rw [h.num]
        omega
      · change i ≤ s.latency at hi
        change Function.update q.entry q.currentIndex _ ((q.currentIndex + i) % q.size) = _
        rcases Nat.eq_zero_or_pos i with rfl | hpos
        · rw [Nat.add_zero, Nat.mod_eq_of_lt h.current, Function.update_self,
            ← readyItems_eq hlawful']
          refine congrArg (List.map Item.entry) (hrest.symm.trans ?_)
          refine congrArg (arranged LatencyQueue.rank) ?_
          exact List.eraseP_filter
        · have hne : (q.currentIndex + i) % q.size ≠ q.currentIndex := by
            intro heq
            have hsize := h.size
            have hzero : (q.currentIndex + i) % q.size = (q.currentIndex + 0) % q.size := by
              rw [heq, Nat.add_zero, Nat.mod_eq_of_lt h.current]
            have hi' := add_mod_inj (by omega) (by omega) hzero
            omega
          rw [Function.update_of_ne hne, h.slots i hi]
          refine congrArg (fun l => (arranged LatencyQueue.rank l).map Item.entry) ?_
          refine (filter_eraseP fun a _ ha => decide_eq_false ?_).symm
          rw [Bool.and_eq_true] at ha
          have hready := of_decide_eq_true ha.2
          omega

/-! ## Moving on -/

/-- A cycle keeps the ring standing for the queue. -/
theorem Refines.advance (h : Refines q s) (hlawful : s.Lawful) :
    Refines q.advance s.advance ∧ (AtLast q s → AtLast q.advance s.advance) ∧
      (s.waiting = [] → q.advance = q ∧ s.advance = s) := by
  have hempty : q.numEntry = 0 ↔ s.waiting = [] := by
    rw [h.num, Nat.cast_eq_zero, List.length_eq_zero_iff]
  unfold PQueue.advance LatencyQueue.advance
  by_cases hnone : s.waiting = []
  · have hnone' : s.waiting.isEmpty = true := List.isEmpty_iff.mpr hnone
    rw [if_pos (hempty.mpr hnone), hnone', Bool.true_or, if_pos rfl]
    exact ⟨h, id, fun _ => ⟨rfl, rfl⟩⟩
  rw [if_neg (mt hempty.mp hnone), h.isEmpty_current hlawful]
  have hnone' : s.waiting.isEmpty = false := by simpa using hnone
  rw [hnone', Bool.false_or]
  by_cases hready : s.readyItems.isEmpty = true
  swap
  · rw [Bool.not_eq_true] at hready
    rw [hready]
    exact ⟨h, id, fun h => absurd h hnone⟩
  rw [hready]
  simp only [Bool.not_true, Bool.false_eq_true, if_false]
  have hsize := h.size
  have hpos : 0 < q.size := by omega
  refine ⟨⟨h.size, h.capacity, h.num, Nat.mod_lt _ hpos, fun i hi => ?_⟩, fun _ => ?_,
    fun h => absurd h hnone⟩
  · change q.entry (((q.currentIndex + 1) % q.size + i) % q.size) = _
    have hindex : ((q.currentIndex + 1) % q.size + i) % q.size =
        (q.currentIndex + (i + 1)) % q.size := by
      rw [Nat.mod_add_mod, Nat.add_assoc, Nat.add_comm 1]
    rw [hindex]
    rcases Nat.lt_or_eq_of_le hi with hlt | rfl
    · rw [h.slots (i + 1) hlt]
      refine congrArg (fun l => (arranged LatencyQueue.rank l).map Item.entry) ?_
      refine List.filter_congr fun x _ => decide_eq_decide.mpr ?_
      change x.stamp + s.latency = s.moves + (i + 1) ↔ x.stamp + s.latency = s.moves + 1 + i
      omega
    · -- the list that was current becomes the last one, and is empty
      rw [← hsize, Nat.add_mod_right, Nat.mod_eq_of_lt h.current, h.entry_current hlawful,
        List.isEmpty_iff.mp hready]
      refine congrArg (fun l => (arranged LatencyQueue.rank l).map Item.entry) ?_
      refine (List.filter_eq_nil_iff.mpr fun x hx => ?_).symm
      have hstamp := hlawful.stamp x hx
      rw [decide_eq_true_eq]
      change ¬ x.stamp + s.latency = s.moves + 1 + s.latency
      omega
  · change q.currentIndex = ((q.currentIndex + 1) % q.size + s.latency) % q.size
    rw [Nat.mod_add_mod, Nat.add_assoc, Nat.add_comm 1, ← hsize, Nat.add_mod_right,
      Nat.mod_eq_of_lt h.current]

/-- A flushed ring stands for a new queue. -/
theorem Refines.flush (h : Refines q s) :
    Refines q.flush (LatencyQueue.new s.capacity s.latency) where
  size := h.size
  capacity := h.capacity
  num := rfl
  current := Nat.zero_lt_of_lt h.current
  slots := fun _ _ => if_pos (Nat.mod_lt _ (Nat.zero_lt_of_lt h.current))

/-! ## All calls -/

/-- Nothing is entered after a flush. -/
def NoEnqueueAfterFlush (calls : List (PQueue.Call T)) : Prop :=
  AtEach (fun before call => ∀ priority data, call = .enqueue priority data →
    PQueue.Call.flush ∉ before) calls

variable {calls : List (PQueue.Call T)} {call : PQueue.Call T} {answer : PQueue.Answer T}

/-- The two queues after the same calls.  After a flush the queue is empty for good. -/
structure Books (calls : List (PQueue.Call T)) (q : PQueue T) (s : LatencyQueue T) : Prop where
  refines : Refines q s
  lawful : s.Lawful
  flushed : PQueue.Call.flush ∈ calls → q.lastIndex = q.size ∧ s.waiting = []
  unflushed : PQueue.Call.flush ∉ calls → AtLast q s

/-- A new ring has its books right. -/
theorem books_new (capacity : ℤ) (latency : ℕ) :
    Books ([] : List (PQueue.Call T)) (PQueue.new capacity latency)
      (LatencyQueue.new capacity latency) where
  refines := refines_new capacity latency
  lawful := LatencyQueue.lawful_new capacity latency
  flushed := fun h => absurd h List.not_mem_nil
  unflushed := fun _ => atLast_new capacity latency

/-- A call that is not a flush. -/
theorem Books.of_kept (h : Books calls q s) (hcall : call ≠ .flush) (hrefines : Refines q' s')
    (hlawful : s'.Lawful) (hflushed : q.lastIndex = q.size → s.waiting = [] →
      q'.lastIndex = q'.size ∧ s'.waiting = [])
    (hlast : AtLast q s → AtLast q' s') : Books (calls ++ [call]) q' s' := by
  have hflush : PQueue.Call.flush ∈ calls ++ [call] ↔ PQueue.Call.flush ∈ calls := by
    rw [List.mem_append, List.mem_singleton]
    exact or_iff_left (Ne.symm hcall)
  refine ⟨hrefines, hlawful, fun hmem => ?_, fun hmem => hlast (h.unflushed (mt hflush.mpr hmem))⟩
  obtain ⟨hindex, hempty⟩ := h.flushed (hflush.mp hmem)
  exact hflushed hindex hempty

/-- A call that leaves both queues as they are. -/
theorem Books.of_same (h : Books calls q s) (hcall : call ≠ .flush) :
    Books (calls ++ [call]) q s :=
  h.of_kept hcall h.refines h.lawful (fun hindex hempty => ⟨hindex, hempty⟩) id

/-- A call that the queue with latency answers is answered in the same way, unless an entry comes
after a flush; then it is written outside of the array. -/
theorem Books.serve [Zero T] (h : Books calls q s) (hs : s.serve call = some (s', answer)) :
    ((∀ priority data, call = .enqueue priority data → PQueue.Call.flush ∉ calls) ∧
        ∃ q', q.serve call = some (q', answer) ∧ Books (calls ++ [call]) q' s') ∨
      ((¬ ∀ priority data, call = .enqueue priority data → PQueue.Call.flush ∉ calls) ∧
        q.serve call = none) := by
  have hlawful' := h.lawful.serve hs
  cases call with
  | enqueue priority data =>
      obtain ⟨t, ht, heq⟩ := Option.map_eq_some_iff.mp hs
      cases heq
      by_cases hflush : PQueue.Call.flush ∈ calls
      · refine Or.inr ⟨fun hnone => hnone priority data rfl hflush, ?_⟩
        have hnot : ¬ (q.numEntry < q.capacity ∧ q.lastIndex < q.size) := fun hroom =>
          absurd (h.flushed hflush).1 hroom.2.ne
        unfold PQueue.serve PQueue.enqueue
        dsimp only
        rw [if_neg hnot]
        rfl
      · obtain ⟨q', hq', hrefines, hlast⟩ := h.refines.enqueue (h.unflushed hflush) ht
        refine Or.inl ⟨fun _ _ _ => hflush, q', ?_, ⟨hrefines, hlawful', fun hmem => ?_,
          fun _ => hlast⟩⟩
        · unfold PQueue.serve
          dsimp only
          rw [hq']
          rfl
        · rcases List.mem_append.mp hmem with hmem | hmem
          · exact absurd hmem hflush
          · cases List.mem_singleton.mp hmem
  | dequeue =>
      obtain ⟨t, ht, heq⟩ := Option.map_eq_some_iff.mp hs
      cases heq
      obtain ⟨q', hq', hrefines, hindex, hcurrent⟩ := h.refines.dequeue h.lawful ht
      refine Or.inl ⟨fun _ _ hcall => (by cases hcall), q', ?_,
        h.of_kept (by simp) hrefines hlawful' (fun _ hempty => ?_) fun hlast => ?_⟩
      · unfold PQueue.serve
        dsimp only
        rw [hq']
        rfl
      · have hmem := (h.lawful.dequeue_first ht).1
        rw [hempty] at hmem
        cases hmem
      · unfold AtLast at hlast ⊢
        rw [hindex, hlast, hcurrent, h.refines.size, hrefines.size]
        obtain ⟨_, _, heq⟩ := Option.map_eq_some_iff.mp ht
        cases heq
        rfl
  | advance =>
      cases hs
      obtain ⟨hrefines, hlast, hsame⟩ := h.refines.advance h.lawful
      refine Or.inl ⟨fun _ _ hcall => (by cases hcall), q.advance, rfl,
        h.of_kept (by simp) hrefines hlawful' (fun hindex hempty => ?_) hlast⟩
      obtain ⟨hq, hs⟩ := hsame hempty
      rw [hq, hs]
      exact ⟨hindex, hempty⟩
  | ready =>
      cases hs
      refine Or.inl ⟨fun _ _ hcall => (by cases hcall), q, ?_,
        h.of_same (by simp)⟩
      unfold PQueue.serve
      rw [h.refines.ready h.lawful]
  | peek entry =>
      obtain ⟨t, ht, heq⟩ := Option.map_eq_some_iff.mp hs
      cases heq
      refine Or.inl ⟨fun _ _ hcall => (by cases hcall), q, ?_,
        h.of_same (by simp)⟩
      unfold PQueue.serve
      dsimp only
      rw [h.refines.peek, ht]
      rfl
  | space =>
      cases hs
      refine Or.inl ⟨fun _ _ hcall => (by cases hcall), q, ?_,
        h.of_same (by simp)⟩
      unfold PQueue.serve
      rw [h.refines.space]
  | flush =>
      cases hs
      have hmem : PQueue.Call.flush ∈ calls ++ [PQueue.Call.flush] :=
        List.mem_append_right _ (List.mem_singleton_self _)
      exact Or.inl ⟨fun _ _ hcall => (by cases hcall), q.flush, rfl,
        h.refines.flush, hlawful', fun _ => ⟨rfl, rfl⟩, fun hnot => absurd hmem hnot⟩

/-- The ring of lists answers all calls in the same way exactly if nothing is entered after a
flush. -/
theorem serveCalls_cases [Zero T] {capacity : ℤ} {latency : ℕ} {answers : List (PQueue.Answer T)}
    (h : serveCalls LatencyQueue.serve (LatencyQueue.new capacity latency) calls =
      some (s, answers)) :
    s.Lawful ∧ ((NoEnqueueAfterFlush calls ∧ ∃ q, serveCalls PQueue.serve
        (PQueue.new capacity latency) calls = some (q, answers) ∧ Books calls q s) ∨
      (¬ NoEnqueueAfterFlush calls ∧
        serveCalls PQueue.serve (PQueue.new capacity latency : PQueue T) calls = none)) := by
  induction calls using List.reverseRecOn generalizing s answers with
  | nil =>
      cases h
      exact ⟨LatencyQueue.lawful_new _ _, Or.inl ⟨atEach_nil, _, rfl, books_new _ _⟩⟩
  | append_singleton calls call ih =>
      obtain ⟨z, before, answer, hcalls, hz, rfl⟩ := serveCalls_append_eq_some h
      obtain ⟨hlawful, hcases⟩ := ih hcalls
      refine ⟨hlawful.serve hz, ?_⟩
      unfold NoEnqueueAfterFlush at hcases ⊢
      rw [atEach_append, serveCalls_append]
      rcases hcases with ⟨hallowed, q, hserved, hbooks⟩ | ⟨hallowed, hserved⟩
      · rw [hserved, Option.bind_some]
        rcases hbooks.serve hz with ⟨hcall, q', hq', hbooks'⟩ | ⟨hcall, hq'⟩
        · refine Or.inl ⟨⟨hallowed, hcall⟩, q', ?_, hbooks'⟩
          rw [hq']
          rfl
        · refine Or.inr ⟨fun hboth => hcall hboth.2, ?_⟩
          rw [hq']
          rfl
      · refine Or.inr ⟨fun hboth => hallowed hboth.1, ?_⟩
        rw [hserved]
        rfl

/-- The latency and the capacity stay. -/
theorem serveCalls_params [Zero T] {capacity : ℤ} {latency : ℕ}
    {answers : List (PQueue.Answer T)}
    (h : serveCalls LatencyQueue.serve (LatencyQueue.new capacity latency) calls =
      some (s, answers)) : s.capacity = capacity ∧ s.latency = latency := by
  induction calls using List.reverseRecOn generalizing s answers with
  | nil =>
      cases h
      exact ⟨rfl, rfl⟩
  | append_singleton calls call ih =>
      obtain ⟨z, before, answer, hcalls, hz, rfl⟩ := serveCalls_append_eq_some h
      obtain ⟨hcapacity, hlatency⟩ := ih hcalls
      exact ⟨(LatencyQueue.serve_params hz).1.trans hcapacity,
        (LatencyQueue.serve_params hz).2.trans hlatency⟩

/-- The ring of lists gives these answers; there is room for what is not waiting, and an entry is
ready exactly if one has waited for the latency.  Nothing is lost or delivered twice, and what is
delivered next has waited for the latency and comes before all other entries of its slot. -/
structure Delivers [Zero T] (capacity : ℤ) (latency : ℕ) (calls : List (PQueue.Call T))
    (answers : List (PQueue.Answer T)) (s : LatencyQueue T) : Prop where
  answers : ∃ q, serveCalls PQueue.serve (PQueue.new capacity latency) calls = some (q, answers) ∧
    q.space = capacity - s.waiting.length ∧
    (q.ready = true ↔ ∃ x ∈ s.waiting, x.stamp + latency ≤ s.moves)
  once : (s.delivered ++ s.waiting).Perm s.entered ∧ (s.entered.map Item.arrival).Nodup
  next : ∀ s' x, s.dequeue = some (s', x) → x ∈ s.waiting ∧ x.stamp + latency ≤ s.moves ∧
    ∀ y ∈ s.waiting, y.stamp = x.stamp → y ≠ x → y.entry.priority < x.entry.priority ∨
      y.entry.priority = x.entry.priority ∧ x.arrival < y.arrival

/-- For every latency and capacity, and all calls that the queue with latency answers, the ring of
lists delivers as it does exactly if nothing is entered after a flush. -/
theorem pqueue_refines_iff [Zero T] {capacity : ℤ} {latency : ℕ}
    {answers : List (PQueue.Answer T)}
    (h : serveCalls LatencyQueue.serve (LatencyQueue.new capacity latency) calls =
      some (s, answers)) :
    Delivers capacity latency calls answers s ↔ NoEnqueueAfterFlush calls := by
  obtain ⟨hlawful, ⟨hallowed, q, hserved, hbooks⟩ | ⟨hallowed, hserved⟩⟩ := serveCalls_cases h
  · obtain ⟨hcapacity, hlatency⟩ := serveCalls_params h
    refine iff_of_true ⟨⟨q, hserved, ?_, ?_⟩, ⟨hlawful.once, hlawful.arrivals_nodup⟩,
      fun s' x hx => ?_⟩ hallowed
    · rw [hbooks.refines.space, ← hcapacity]
      rfl
    · rw [hbooks.refines.ready hlawful, ← hlatency]
      unfold LatencyQueue.readyItems LatencyQueue.isReady
      simp
    · rw [← hlatency]
      exact hlawful.dequeue_first hx
  · refine iff_of_false (fun hdelivers => ?_) hallowed
    obtain ⟨q, hq, -⟩ := hdelivers.answers
    rw [hserved] at hq
    cases hq

/-- Two entries of different priority and one that comes a move later. -/
def twoPriorities : List (PQueue.Call ℤ) :=
  [.enqueue 3 7, .enqueue 5 8, .advance, .enqueue 9 1, .ready, .advance, .ready, .dequeue, .advance,
    .dequeue, .space]

/-- The first two entries leave by priority once the queue has moved on twice. -/
theorem pqueue_refines_iff_two_priorities :
    ∃ s, s.delivered.map (fun x => x.entry.data) = [8, 7] ∧
      Delivers 4 2 twoPriorities [.done, .done, .done, .done, .ready false, .done, .ready true,
        .dequeued ⟨5, 8⟩, .done, .dequeued ⟨3, 7⟩, .space 3] s := by
  refine ⟨_, ?_, (pqueue_refines_iff rfl).mpr ?_⟩
  · rfl
  · rintro before call after hcalls priority data rfl hflush
    have hmem : PQueue.Call.flush ∈ twoPriorities := by
      rw [hcalls]
      exact List.mem_append_left _ hflush
    simp [twoPriorities] at hmem

/-- After a flush the next entry is written behind the last list. -/
theorem enqueue_after_flush_fails :
    ∃ s, serveCalls LatencyQueue.serve (LatencyQueue.new 8 2) [.flush, .enqueue 0 (7 : ℤ)] =
        some (s, [.done, .done]) ∧
      (serveCalls PQueue.serve (PQueue.new 8 2) [.flush, .enqueue 0 (7 : ℤ)]).isNone = true ∧
      ¬ Delivers 8 2 [.flush, .enqueue 0 (7 : ℤ)] [.done, .done] s := by
  have hfails : (serveCalls PQueue.serve (PQueue.new 8 2)
      [.flush, .enqueue 0 (7 : ℤ)]).isNone = true := rfl
  refine ⟨_, rfl, hfails, fun h => ?_⟩
  obtain ⟨q, hq, -⟩ := h.answers
  rw [hq] at hfails
  cases hfails

end PQueue

end MacSim.Analysis
