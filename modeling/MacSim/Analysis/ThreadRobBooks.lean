import MacSim.Computation.Ring
import MacSim.Model.ThreadRobs

/-!
# Reorder buffers of threads

`Circular` ties the array of a buffer to the list of its uops, and `RobsInv` says that the
buffers of a core are distributed over the free list and the live threads.  Both hold in every
run.

`reinit` empties the array and leaves everything else of a buffer as it is.  `Alike` relates two
buffers that a thread cannot tell apart under the knobs; a reserved buffer is alike to a new
one if what its previous owner left in the fences, the write buffer and the books is what a new
one has.
-/

set_option autoImplicit false

namespace MacSim.Analysis

open MacSim.Model MacSim.Computation

variable {k : BackKnobs} {r r' : RobBuffer} {heap : UopPtr → BackUop} {p : UopPtr}

/-! ## The circular array -/

/-- The uops of the buffer lie in the array from the first entry on, the oldest one first. -/
structure Circular (size : ℕ) (r : RobBuffer) : Prop where
  maxCnt : r.maxCnt = size * 2
  usableCnt : r.usableCnt = size
  length_le : r.entries.length ≤ size
  freeCnt : r.freeCnt = size - r.entries.length
  first_lt : 0 < size → r.firstEntry < size * 2
  last : r.lastEntry = (r.firstEntry + r.entries.length) % (size * 2)
  slots : ∀ i p, r.entries[i]? = some p → r.slots ((r.firstEntry + i) % (size * 2)) = some p

namespace Circular

variable {size : ℕ}

/-- A new buffer is circular. -/
theorem new (size : ℕ) (uninit : Rob) : Circular size (RobBuffer.new size uninit) where
  maxCnt := rfl
  usableCnt := Nat.mul_div_cancel size Nat.two_pos
  length_le := Nat.zero_le size
  freeCnt := by simp [RobBuffer.new]
  first_lt h := by simp only [RobBuffer.new]; omega
  last := by simp [RobBuffer.new]
  slots i p h := by simp [RobBuffer.new] at h

/-- A buffer that is initialised again is circular. -/
theorem reinit (h : Circular size r) : Circular size r.reinit where
  maxCnt := h.maxCnt
  usableCnt := by simp [RobBuffer.reinit, h.maxCnt]
  length_le := Nat.zero_le size
  freeCnt := by simp [RobBuffer.reinit, h.maxCnt]
  first_lt hs := by simp only [RobBuffer.reinit]; omega
  last := by simp [RobBuffer.reinit]
  slots i p hi := by simp [RobBuffer.reinit] at hi

/-- What is not about the array can change. -/
theorem of_eq (h : Circular size r) (hentries : r'.entries = r.entries)
    (hmax : r'.maxCnt = r.maxCnt) (husable : r'.usableCnt = r.usableCnt)
    (hfree : r'.freeCnt = r.freeCnt) (hslots : r'.slots = r.slots)
    (hfirst : r'.firstEntry = r.firstEntry) (hlast : r'.lastEntry = r.lastEntry) :
    Circular size r' where
  maxCnt := hmax.trans h.maxCnt
  usableCnt := husable.trans h.usableCnt
  length_le := hentries ▸ h.length_le
  freeCnt := by rw [hfree, hentries, h.freeCnt]
  first_lt hs := hfirst ▸ h.first_lt hs
  last := by rw [hlast, hfirst, hentries, h.last]
  slots i p hi := by
    rw [hslots, hfirst]
    exact h.slots i p (hentries ▸ hi)

/-- A push with space left keeps the buffer circular. -/
theorem push (h : Circular size r) (hspace : 0 < r.space) (fenceEnable : Bool) :
    Circular size (r.push fenceEnable heap p).2 := by
  have hlt : r.entries.length < size := by
    have hfree := h.freeCnt
    unfold RobBuffer.space at hspace
    omega
  have hle := h.first_lt (by omega)
  refine ⟨h.maxCnt, h.usableCnt, ?_, ?_, fun hs => h.first_lt hs, ?_, fun i q hi => ?_⟩
  · simp only [RobBuffer.push, List.length_append, List.length_singleton]
    omega
  · simp only [RobBuffer.push, List.length_append, List.length_singleton, h.freeCnt]
    omega
  · simp only [RobBuffer.push, List.length_append, List.length_singleton, h.maxCnt, h.last]
    rw [Nat.mod_add_mod, Nat.add_assoc]
  · simp only [RobBuffer.push] at hi ⊢
    rw [List.getElem?_append] at hi
    split at hi
    · rename_i hold
      have hne : (r.firstEntry + i) % (size * 2) ≠ r.lastEntry := by
        rw [h.last]
        intro heq
        have := add_mod_inj (by omega) (by omega) heq
        omega
      rw [Function.update_of_ne hne]
      exact h.slots i q hi
    · rename_i hnew
      have hlast : i = r.entries.length := by
        have := (List.getElem?_eq_some_iff.mp hi).1
        simp only [List.length_singleton] at this
        omega
      subst hlast
      rw [← h.last, Function.update_self]
      simpa using hi

/-- The count is the number of entries. -/
theorem count_eq (h : Circular size r) : r.count = r.entries.length := by
  rw [RobBuffer.count, h.usableCnt, h.freeCnt]
  omega

/-- The last entry is found before the end of the array's used part. -/
theorem back_eq (h : Circular size r) (hone : r.count = 1) : r.back = r.entries.head? := by
  have hlen : r.entries.length = 1 := by
    have := h.count_eq
    omega
  have hpos : 0 < size := by
    have := h.length_le
    omega
  obtain ⟨p, hp⟩ := List.length_eq_one_iff.mp hlen
  have hfirst := h.first_lt hpos
  have hindex : (r.lastEntry + r.maxCnt - 1) % r.maxCnt = (r.firstEntry + 0) % (size * 2) := by
    rw [h.last, hlen, h.maxCnt, Nat.add_zero r.firstEntry, Nat.mod_eq_of_lt hfirst,
      slot_next hfirst]
    by_cases hend : r.firstEntry + 1 = size * 2
    · rw [if_pos hend, slot_prev (by omega), if_pos rfl]
      omega
    · rw [if_neg hend, slot_prev (by omega), if_neg (Nat.succ_ne_zero _), Nat.add_sub_cancel]
  rw [RobBuffer.back, hindex, h.slots 0 p (by simp [hp]), hp]
  rfl

/-- A pop of a buffer with entries takes the oldest one, and does to the books what the list
does. -/
theorem pop_eq (h : Circular size r) (heap : UopPtr → BackUop) (hcount : 0 < r.count) :
    ∃ q r', r.entries.head? = some q ∧ r.slots r.firstEntry = some q ∧
      r.pop heap = some r' ∧ r'.toRob = r.toRob.pop (heap q).uopNum ∧ Circular size r' := by
  have hpos : 0 < r.entries.length := by
    have := h.count_eq
    omega
  obtain ⟨q, rest, hq⟩ := List.exists_cons_of_length_pos hpos
  have hfirst := h.first_lt (by have := h.length_le; omega)
  have hslot : r.slots r.firstEntry = some q := by
    have := h.slots 0 q (by simp [hq])
    rwa [Nat.add_zero, Nat.mod_eq_of_lt hfirst] at this
  have hcirc (b : Rob) (hb : b.entries = rest) : Circular size
      { r with
        toRob := b
        firstEntry := (r.firstEntry + 1) % r.maxCnt
        freeCnt := r.freeCnt + 1 } := by
    have hlen := h.length_le
    rw [hq, List.length_cons] at hlen
    refine ⟨h.maxCnt, h.usableCnt, by rw [hb]; omega, ?_, fun hs => ?_, ?_, fun i x hi => ?_⟩
    · simp only [h.freeCnt, hb, hq, List.length_cons]
      omega
    · simp only [h.maxCnt]
      exact Nat.mod_lt _ (by omega)
    · simp only [h.last, h.maxCnt, hb, hq, List.length_cons, Nat.mod_add_mod]
      rw [Nat.add_right_comm, Nat.add_assoc r.firstEntry rest.length]
    · simp only [hb] at hi
      simp only [h.maxCnt, Nat.mod_add_mod]
      rw [Nat.add_assoc, Nat.add_comm 1 i]
      exact h.slots (i + 1) x (by rw [hq, List.getElem?_cons_succ]; exact hi)
  by_cases hreset : r.count = 1 ∧ r.orq = []
  · have hback : r.back = some q := by rw [h.back_eq hreset.1, hq]; rfl
    have hlen : r.entries.length = 1 := by
      have := h.count_eq
      omega
    refine ⟨q, _, by rw [hq]; rfl, hslot, by
      simp only [RobBuffer.pop, if_pos hreset, hback, Option.map_some]; rfl, ?_, hcirc _ ?_⟩
    · simp [Rob.pop, hlen, hreset.2]
    · simp [hq]
  · have hbooks : ¬ (r.entries.length = 1 ∧ r.orq = []) := fun hc =>
      hreset ⟨by rw [h.count_eq, hc.1]; rfl, hc.2⟩
    refine ⟨q, _, by rw [hq]; rfl, hslot, by
      simp only [RobBuffer.pop, if_neg hreset]; rfl, ?_, hcirc _ ?_⟩
    · simp [Rob.pop, hbooks]
    · simp [hq]

/-- The relative index of an entry is its distance from the oldest one. -/
theorem relativeIndex_eq (h : Circular size r) {i : ℕ} (hi : i < r.entries.length) :
    r.getRelativeIndex ((r.firstEntry + i) % r.maxCnt) = i := by
  have hlen := h.length_le
  have hfirst := h.first_lt (by omega)
  rw [RobBuffer.getRelativeIndex, h.maxCnt]
  by_cases hwrap : r.firstEntry + i < size * 2
  · rw [Nat.mod_eq_of_lt hwrap, if_pos (by omega)]
    omega
  · rw [Nat.mod_eq_sub_mod (by omega), Nat.mod_eq_of_lt (by omega), if_neg (by omega)]
    omega

end Circular

/-- The buffer is a queue of at most `usableCnt` uops, and the relative index of a uop is its
distance from the oldest one. -/
structure ActsAsFifo (r : RobBuffer) : Prop where
  capacity : r.space = r.usableCnt - r.entries.length ∧ r.entries.length ≤ r.usableCnt
  placed : ∀ i p, r.entries[i]? = some p →
    r.slots ((r.firstEntry + i) % r.maxCnt) = some p ∧
      r.getRelativeIndex ((r.firstEntry + i) % r.maxCnt) = i
  push : ∀ fenceEnable heap p, 0 < r.space →
    (r.push fenceEnable heap p).2.entries = r.entries ++ [p]
  pop : ∀ heap, 0 < r.count → ∃ q r', r.slots r.firstEntry = some q ∧
    r.pop heap = some r' ∧ r.entries = q :: r'.entries

/-- A circular buffer acts as a queue. -/
theorem Circular.actsAsFifo {size : ℕ} (h : Circular size r) : ActsAsFifo r where
  capacity := by
    refine ⟨?_, by rw [h.usableCnt]; exact h.length_le⟩
    rw [RobBuffer.space, h.freeCnt, h.usableCnt]
  placed i p hi := by
    have hlt : i < r.entries.length := (List.getElem?_eq_some_iff.mp hi).1
    exact ⟨by rw [h.maxCnt]; exact h.slots i p hi, h.relativeIndex_eq hlt⟩
  push fenceEnable heap p _ := rfl
  pop heap hcount := by
    obtain ⟨q, r', hhead, hslot, hpop, hbooks, -⟩ := h.pop_eq heap hcount
    refine ⟨q, r', hslot, hpop, ?_⟩
    have hentries : r'.entries = r.entries.tail := by
      rw [hbooks, Rob.pop]
      split <;> rfl
    rw [hentries]
    exact (List.cons_head?_tail hhead).symm

/-! ## The buffers of a core -/

/-- The buffers of a core: each one is a circular array, and is free or belongs to one
thread. -/
structure RobsInv (k : BackKnobs) (s : ThreadRobs) : Prop where
  circular : ∀ i, Circular k.robSize (s.threadRobs i)
  exclusive : ∀ t t' i, s.threadToRobMap t = some i → s.threadToRobMap t' = some i → t = t'
  nodup : s.freeList.Nodup
  free : ∀ i ∈ s.freeList, ∀ t, s.threadToRobMap t ≠ some i
  cover : ∀ i, (i < k.numThreads ↔ i ∈ s.freeList ∨ ∃ t, s.threadToRobMap t = some i)

namespace RobsInv

variable {s s' : ThreadRobs} {t : ℤ}

/-- The buffers are in order at the start. -/
theorem new (k : BackKnobs) (uninit : Rob) (heap : UopPtr → BackUop) :
    RobsInv k (ThreadRobs.new k uninit heap) where
  circular _ := Circular.new k.robSize uninit
  exclusive t t' i h := by cases h
  nodup := List.nodup_range
  free i _ t h := by cases h
  cover i := by simp [ThreadRobs.new]

/-- One buffer is replaced by another circular array. -/
theorem update (h : RobsInv k s) {i : ℕ} (hr : Circular k.robSize r) (heap : UopPtr → BackUop) :
    RobsInv k { s with threadRobs := Function.update s.threadRobs i r, heap := heap } where
  circular j := by
    by_cases hj : j = i
    · simp only [hj, Function.update_self]
      exact hr
    · simp only [Function.update_of_ne hj]
      exact h.circular j
  exclusive := h.exclusive
  nodup := h.nodup
  free := h.free
  cover := h.cover

/-- Reserving a buffer takes the first free one for a thread that has none. -/
theorem reserveRob_eq (hs : s.reserveRob t = some s') :
    s.threadToRobMap t = none ∧ ∃ index rest, s.freeList = index :: rest ∧
      s' = { s with
        freeList := rest
        threadToRobMap := Function.update s.threadToRobMap t (some index)
        threadRobs := Function.update s.threadRobs index (s.threadRobs index).reinit } := by
  unfold ThreadRobs.reserveRob at hs
  split at hs
  · cases hs
  · rename_i hlive
    refine ⟨by simpa using (not_or.mp hlive).2, ?_⟩
    cases hfree : s.freeList with
    | nil => simp [hfree] at hs
    | cons index rest =>
        simp only [hfree, Option.some.injEq] at hs
        exact ⟨index, rest, rfl, hs.symm⟩

/-- Reserving a buffer keeps the buffers in order. -/
theorem reserveRob (h : RobsInv k s) (hs : s.reserveRob t = some s') : RobsInv k s' := by
  obtain ⟨hnone, index, rest, hfree, rfl⟩ := reserveRob_eq hs
  have hnd := h.nodup
  rw [hfree, List.nodup_cons] at hnd
  have hindex : ∀ t', s.threadToRobMap t' ≠ some index := h.free index (by simp [hfree])
  have hbuffers := (h.update (i := index) (h.circular index).reinit s.heap).circular
  refine ⟨hbuffers, fun a b i ha hb => ?_, hnd.2, fun i hi a => ?_, fun i => ?_⟩
  · simp only [Function.update_apply] at ha hb
    have hold := h.exclusive a b i
    have hindexa := hindex a
    have hindexb := hindex b
    grind
  · simp only [Function.update_apply]
    have hold := h.free i (by rw [hfree]; exact List.mem_cons_of_mem _ hi) a
    grind
  · rw [h.cover, hfree]
    constructor
    · rintro (hi | ⟨a, ha⟩)
      · rcases List.mem_cons.mp hi with rfl | hi
        · exact .inr ⟨t, Function.update_self ..⟩
        · exact .inl hi
      · have hne : a ≠ t := by
          rintro rfl
          rw [hnone] at ha
          cases ha
        exact .inr ⟨a, (Function.update_of_ne hne ..).trans ha⟩
    · rintro (hi | ⟨a, ha⟩)
      · exact .inl (List.mem_cons_of_mem _ hi)
      · simp only [Function.update_apply] at ha
        split at ha
        · exact .inl (by rw [← Option.some_inj.mp ha]; exact List.mem_cons_self ..)
        · exact .inr ⟨a, ha⟩

/-- Freeing a buffer keeps the buffers in order. -/
theorem freeRob (h : RobsInv k s) (hs : s.freeRob t = some s') : RobsInv k s' := by
  unfold ThreadRobs.freeRob at hs
  split at hs
  · cases hs
  obtain ⟨index, hindex, rfl⟩ := Option.map_eq_some_iff.mp hs
  refine ⟨h.circular, fun a b i ha hb => ?_, ?_, fun i hi a => ?_, fun i => ?_⟩
  · simp only [Function.update_apply] at ha hb
    have hold := h.exclusive a b i
    grind
  · have hout : index ∉ s.freeList := fun hin => h.free index hin t hindex
    exact (List.perm_append_singleton index s.freeList).nodup_iff.mpr
      (List.nodup_cons.mpr ⟨hout, h.nodup⟩)
  · simp only [Function.update_apply]
    have hold := h.exclusive a t i
    have hfree := h.free i
    grind
  · rw [h.cover]
    have hold := h.exclusive
    simp only [List.mem_append, List.mem_singleton, Function.update_apply]
    constructor
    · rintro (hi | ⟨a, ha⟩)
      · exact .inl (.inl hi)
      · by_cases hat : a = t
        · rw [hat, hindex] at ha
          exact .inl (.inr (Option.some_inj.mp ha).symm)
        · exact .inr ⟨a, by rw [if_neg hat]; exact ha⟩
    · rintro ((hi | rfl) | ⟨a, ha⟩)
      · exact .inl hi
      · exact .inr ⟨t, hindex⟩
      · split at ha
        · cases ha
        · exact .inr ⟨a, ha⟩

/-- A change of one buffer that keeps it circular keeps the buffers in order. -/
theorem onThread (h : RobsInv k s) {f : RobBuffer → Option RobBuffer}
    (hf : ∀ r r', Circular k.robSize r → f r = some r' → Circular k.robSize r')
    (hs : s.onThread t f = some s') : RobsInv k s' := by
  unfold ThreadRobs.onThread at hs
  split at hs
  · cases hs
  obtain ⟨index, -, hr⟩ := Option.bind_eq_some_iff.mp hs
  obtain ⟨r', hr', rfl⟩ := Option.map_eq_some_iff.mp hr
  exact h.update (hf _ r' (h.circular index) hr') s.heap

/-- A push keeps the buffers in order. -/
theorem pushUop {p : UopPtr} (h : RobsInv k s) (hs : s.pushUop k t p = some s') :
    RobsInv k s' := by
  unfold ThreadRobs.pushUop at hs
  split at hs
  · cases hs
  obtain ⟨index, -, hr⟩ := Option.bind_eq_some_iff.mp hs
  dsimp only at hr
  split at hr
  · rename_i hspace
    rw [← Option.some_inj.mp hr]
    exact h.update ((h.circular index).push hspace k.fenceEnable) _
  · cases hr

/-- The books of a buffer change, and its uops do not. -/
theorem circular_books {b : Rob} {size : ℕ} (h : Circular size r) (hb : b.entries = r.entries) :
    Circular size { r with toRob := b } :=
  h.of_eq hb rfl rfl rfl rfl rfl rfl

/-- Each action keeps the buffers in order. -/
theorem step {a : RobsAct} (h : RobsInv k s) (hs : s.step k a = some s') : RobsInv k s' := by
  cases a with
  | reserveRob t => exact h.reserveRob hs
  | freeRob t => exact h.freeRob hs
  | push t p => exact h.pushUop hs
  | pop t =>
      simp only [ThreadRobs.step] at hs
      refine h.onThread (fun r r' hr hr' => ?_) hs
      split at hr'
      · rename_i hcount
        obtain ⟨q, r'', -, -, hpop, -, hcirc⟩ := hr.pop_eq s.heap hcount
        rw [Option.some_inj.mp (hr'.symm.trans hpop)]
        exact hcirc
      · cases hr'
  | insFenceEntry t entry ft =>
      simp only [ThreadRobs.step] at hs
      refine h.onThread (fun r r' hr hr' => ?_) hs
      rw [← Option.some_inj.mp hr', RobBuffer.insFenceEntry]
      split
      · exact hr
      · exact hr.of_eq rfl rfl rfl rfl rfl rfl rfl
  | delFenceEntry t ft =>
      simp only [ThreadRobs.step] at hs
      refine h.onThread (fun r r' hr hr' => ?_) hs
      unfold RobBuffer.delFenceEntry at hr'
      split at hr'
      · cases hr'
      · rw [← Option.some_inj.mp hr']
        exact hr.of_eq rfl rfl rfl rfl rfl rfl rfl
  | setWbEmpty t state =>
      simp only [ThreadRobs.step] at hs
      refine h.onThread (fun r r' hr hr' => ?_) hs
      rw [← Option.some_inj.mp hr']
      exact hr.of_eq rfl rfl rfl rfl rfl rfl rfl
  | updateOrq t age =>
      simp only [ThreadRobs.step] at hs
      refine h.onThread (fun r r' hr hr' => ?_) hs
      obtain ⟨b, hb, rfl⟩ := Option.map_eq_some_iff.mp hr'
      obtain ⟨x, -, rfl⟩ := Option.map_eq_some_iff.mp hb
      exact circular_books hr rfl
  | updateRoot t p =>
      simp only [ThreadRobs.step] at hs
      refine h.onThread (fun r r' hr hr' => ?_) hs
      obtain ⟨b, hb, rfl⟩ := Option.map_eq_some_iff.mp hr'
      refine circular_books hr ?_
      unfold Rob.updateRoot at hb
      split at hb
      · split at hb
        · cases hb
        · rw [← Option.some_inj.mp hb]
      · rw [← Option.some_inj.mp hb]
  | writeUop p uop =>
      rw [← Option.some_inj.mp hs]
      exact ⟨h.circular, h.exclusive, h.nodup, h.free, h.cover⟩

/-- Every run keeps the buffers in order. -/
theorem run {acts : List RobsAct} (h : RobsInv k s) (hs : s.run k acts = some s') :
    RobsInv k s' := by
  induction acts generalizing s with
  | nil =>
      rw [← Option.some_inj.mp hs]
      exact h
  | cons a acts ih =>
      unfold ThreadRobs.run at hs
      rw [List.foldlM_cons] at hs
      obtain ⟨m, hm, hrest⟩ := Option.bind_eq_some_iff.mp hs
      exact ih (h.step hm) hrest

end RobsInv

/-! ## Buffers that a thread cannot tell apart -/

/-- The buffers have one array, and agree on what the calls of a thread read under the knobs.
Without fences in the order queue nothing reads `resetUopNum`. -/
structure Alike (k : BackKnobs) (r r' : RobBuffer) : Prop where
  maxCnt : r.maxCnt = r'.maxCnt
  usableCnt : r.usableCnt = r'.usableCnt
  freeCnt : r.freeCnt = r'.freeCnt
  slots : r.slots = r'.slots
  firstEntry : r.firstEntry = r'.firstEntry
  lastEntry : r.lastEntry = r'.lastEntry
  fences : k.acqRel = false → r.fences = r'.fences
  wbEmpty : k.useWb = true → r.wbEmpty = r'.wbEmpty
  version : r.version = r'.version
  lastFenceVersion : r.lastFenceVersion = r'.lastFenceVersion
  orq : r.orq = r'.orq
  disabled : k.fenceEnable = false → r.orq = []
  reset : k.fenceEnable = true → r.resetUopNum = r'.resetUopNum

namespace Alike

/-- Alike buffers give a uop the same version. -/
theorem versionOf (h : Alike k r r') (uop : BackUop) : r.versionOf uop = r'.versionOf uop := by
  simp only [Rob.versionOf, h.version, h.lastFenceVersion]

/-- Alike buffers keep the same versions. -/
theorem processVersion (h : Alike k r r') (uop : BackUop) :
    (r.toRob.processVersion k.fenceEnable uop).version =
        (r'.toRob.processVersion k.fenceEnable uop).version ∧
      (r.toRob.processVersion k.fenceEnable uop).lastFenceVersion =
        (r'.toRob.processVersion k.fenceEnable uop).lastFenceVersion ∧
      (r.toRob.processVersion k.fenceEnable uop).orq =
        (r'.toRob.processVersion k.fenceEnable uop).orq ∧
      (k.fenceEnable = false → (r.toRob.processVersion k.fenceEnable uop).orq = []) ∧
      (r.toRob.processVersion k.fenceEnable uop).resetUopNum = r.resetUopNum ∧
      (r'.toRob.processVersion k.fenceEnable uop).resetUopNum = r'.resetUopNum := by
  cases hk : k.fenceEnable with
  | false =>
      have hnil : r'.orq = [] := h.orq.symm.trans (h.disabled hk)
      cases hu : uop.uopType <;>
        simp [Rob.processVersion, UopType.isFence, hu, h.version, h.lastFenceVersion, h.orq, hnil]
  | true =>
      cases hu : uop.uopType <;>
        simp [Rob.processVersion, UopType.isFence, hu, h.version, h.lastFenceVersion, h.orq]

/-- A push keeps two buffers alike. -/
theorem push (h : Alike k r r') (heap : UopPtr → BackUop) (p : UopPtr) :
    Alike k (r.push k.fenceEnable heap p).2 (r'.push k.fenceEnable heap p).2 := by
  obtain ⟨hversion, hlast, horq, hdisabled, hreset, hreset'⟩ := h.processVersion (heap p)
  refine ⟨h.maxCnt, h.usableCnt, ?_, ?_, h.firstEntry, ?_, h.fences, h.wbEmpty, hversion, hlast,
    horq, hdisabled, fun hf => ?_⟩
  · simp only [RobBuffer.push, h.freeCnt]
  · simp only [RobBuffer.push, h.slots, h.lastEntry]
  · simp only [RobBuffer.push, h.lastEntry, h.maxCnt]
  · exact (hreset.trans (h.reset hf)).trans hreset'.symm

/-- Alike buffers have the same last entry. -/
theorem back (h : Alike k r r') : r.back = r'.back := by
  simp only [RobBuffer.back, h.slots, h.lastEntry, h.maxCnt]

/-- A pop keeps two buffers alike. -/
theorem pop (h : Alike k r r') (heap : UopPtr → BackUop) :
    Option.Rel (Alike k) (r.pop heap) (r'.pop heap) := by
  have hcount : r.count = r'.count := by
    simp only [RobBuffer.count, h.usableCnt, h.freeCnt]
  unfold RobBuffer.pop
  rw [hcount, h.orq, h.back]
  split
  · cases r'.back with
    | none => exact .none
    | some q =>
        refine .some ⟨h.maxCnt, h.usableCnt, ?_, h.slots, ?_, h.lastEntry, h.fences, h.wbEmpty,
          rfl, rfl, rfl, fun hf => h.orq.symm.trans (h.disabled hf), fun _ => rfl⟩
        · simp only [h.freeCnt]
        · simp only [h.firstEntry, h.maxCnt]
  · refine .some ⟨h.maxCnt, h.usableCnt, ?_, h.slots, ?_, h.lastEntry, h.fences, h.wbEmpty,
      h.version, h.lastFenceVersion, h.orq, h.disabled, h.reset⟩
    · simp only [h.freeCnt]
    · simp only [h.firstEntry, h.maxCnt]

/-- Alike buffers order memory in the same way. -/
theorem ensureMemOrdering (h : Alike k r r') (entry : ℕ) :
    r.ensureMemOrdering k.acqRel entry = r'.ensureMemOrdering k.acqRel entry := by
  unfold RobBuffer.ensureMemOrdering
  cases hk : k.acqRel with
  | true => rfl
  | false =>
      have hindex (e : ℕ) : r.getRelativeIndex e = r'.getRelativeIndex e := by
        simp only [RobBuffer.getRelativeIndex, h.firstEntry, h.maxCnt]
      have hlater (f : ℕ) : r.isLaterEntry f entry = r'.isLaterEntry f entry := by
        simp only [RobBuffer.isLaterEntry, hindex]
      simp only [h.fences hk, hlater]

/-- The search for pending accesses is the same in alike buffers. -/
theorem pendingLoop (h : Alike k r r') (entry rounds search : ℕ) :
    r.pendingLoop heap entry rounds search = r'.pendingLoop heap entry rounds search := by
  induction rounds generalizing search with
  | zero => rfl
  | succ rounds ih => simp only [RobBuffer.pendingLoop, h.slots, h.maxCnt, ih]

/-- Alike buffers have the same pending accesses. -/
theorem pendingMemOps (h : Alike k r r') (entry : ℕ) :
    r.pendingMemOps k.useWb heap entry = r'.pendingMemOps k.useWb heap entry := by
  unfold RobBuffer.pendingMemOps
  rw [h.pendingLoop, h.maxCnt, h.firstEntry]
  cases hk : k.useWb with
  | false => rfl
  | true => rw [h.wbEmpty hk]

/-- Alike buffers check versions in the same way. -/
theorem versionOrderingCheck (h : Alike k r r') (uop : BackUop) :
    r.versionOrderingCheck uop = r'.versionOrderingCheck uop := by
  unfold Rob.versionOrderingCheck
  rw [← h.orq]
  cases hk : k.fenceEnable with
  | false => rw [h.disabled hk]
  | true => rw [h.reset hk]

/-- One call returns the same, and leaves the buffers alike. -/
theorem exec (h : Alike k r r') (call : RobCall) :
    Option.Rel (fun x y => x.1 = y.1 ∧ Alike k x.2.1 y.2.1 ∧ x.2.2 = y.2.2)
      (call.exec k (r, heap)) (call.exec k (r', heap)) := by
  cases call with
  | push p =>
      have hspace : r.space = r'.space := h.freeCnt
      have hversion := h.versionOf (heap p)
      simp only [RobCall.exec, hspace]
      split
      · exact .some ⟨congrArg RobOut.version hversion, h.push heap p, by
          simp only [RobBuffer.push, hversion]⟩
      · exact .none
  | pop =>
      have hcount : r.count = r'.count := by
        simp only [RobBuffer.count, h.usableCnt, h.freeCnt]
      have hpop := h.pop heap
      simp only [RobCall.exec, hcount]
      split
      · cases hr : r.pop heap with
        | none =>
            rw [hr] at hpop
            cases hr' : r'.pop heap with
            | none => exact .none
            | some y => rw [hr'] at hpop; cases hpop
        | some x =>
            rw [hr] at hpop
            cases hr' : r'.pop heap with
            | none => rw [hr'] at hpop; cases hpop
            | some y =>
                rw [hr'] at hpop
                cases hpop with
                | some hxy => exact .some ⟨rfl, hxy, rfl⟩
      · exact .none
  | ensureMemOrdering entry =>
      exact .some ⟨congrArg RobOut.ordered (h.ensureMemOrdering entry), h, rfl⟩
  | pendingMemOps entry =>
      simp only [RobCall.exec, h.pendingMemOps]
      cases r'.pendingMemOps k.useWb heap entry with
      | none => exact .none
      | some b => exact .some ⟨rfl, h, rfl⟩
  | versionOrderingCheck p =>
      exact .some ⟨congrArg RobOut.ordered (h.versionOrderingCheck (heap p)), h, rfl⟩

end Alike

/-! ## Reserved buffers -/

/-- Every sequence of calls of a thread returns the same on both buffers. -/
def SameResults (k : BackKnobs) (r r' : RobBuffer) : Prop :=
  ∀ heap calls, (runOps (fun s (c : RobCall) => c.exec k s) (r, heap) calls).map Prod.fst =
    (runOps (fun s (c : RobCall) => c.exec k s) (r', heap) calls).map Prod.fst

/-- Alike buffers give the same results. -/
theorem Alike.sameResults (h : Alike k r r') : SameResults k r r' := by
  intro heap calls
  refine runOps_outputs_eq (R := fun s s' => Alike k s.1 s'.1 ∧ s.2 = s'.2) ?_ ⟨h, rfl⟩ calls
  rintro ⟨b, heap⟩ ⟨b', heap'⟩ call ⟨hb, rfl⟩
  exact hb.exec call

/-- What `reinit` leaves alone is, as far as calls read it under the knobs, what the constructor
puts there, or finds there. -/
structure LeftAsNew (k : BackKnobs) (uninit : Rob) (r : RobBuffer) : Prop where
  fences : k.acqRel = false → ∀ ft, r.fences ft = []
  wbEmpty : k.useWb = true → r.wbEmpty = true
  version : r.version = uninit.version
  lastFenceVersion : r.lastFenceVersion = uninit.lastFenceVersion
  orq : r.orq = []
  reset : k.fenceEnable = true → r.resetUopNum = uninit.resetUopNum

/-- A buffer left as new is like a new one once it is initialised again. -/
theorem LeftAsNew.alike {uninit : Rob} (h : LeftAsNew k uninit r) (hr : Circular k.robSize r) :
    Alike k r.reinit (RobBuffer.new k.robSize uninit) where
  maxCnt := hr.maxCnt
  usableCnt := by simp only [RobBuffer.reinit, RobBuffer.new, hr.maxCnt]
  freeCnt := by simp only [RobBuffer.reinit, RobBuffer.new, hr.maxCnt]
  slots := rfl
  firstEntry := rfl
  lastEntry := rfl
  fences hk := funext (h.fences hk)
  wbEmpty := h.wbEmpty
  version := h.version
  lastFenceVersion := h.lastFenceVersion
  orq := h.orq
  disabled _ := h.orq
  reset := h.reset

/-- In every run, live threads have different buffers, the free list and the threads have each
buffer once, and every buffer is a queue; and a thread that reserves a buffer gets the results of
a new one, if the buffer was left as a new one has it. -/
theorem thread_robs_exclusive_and_fresh (k : BackKnobs) (uninit : Rob) (heap : UopPtr → BackUop)
    (acts : List RobsAct) (s : ThreadRobs)
    (hrun : (ThreadRobs.new k uninit heap).run k acts = some s) :
    (∀ t t' i, s.threadToRobMap t = some i → s.threadToRobMap t' = some i → t = t') ∧
    (s.freeList.Nodup ∧ (∀ i ∈ s.freeList, ∀ t, s.threadToRobMap t ≠ some i) ∧
      ∀ i, i < k.numThreads ↔ i ∈ s.freeList ∨ ∃ t, s.threadToRobMap t = some i) ∧
    (∀ t i, s.threadToRobMap t = some i → ActsAsFifo (s.threadRobs i)) ∧
    ∀ t s' i, s.reserveRob t = some s' → s'.threadToRobMap t = some i →
      LeftAsNew k uninit (s.threadRobs i) →
      (s'.threadRobs i).entries = [] ∧
        SameResults k (s'.threadRobs i) (RobBuffer.new k.robSize uninit) := by
  have hinv : RobsInv k s := (RobsInv.new k uninit heap).run hrun
  refine ⟨hinv.exclusive, ⟨hinv.nodup, hinv.free, hinv.cover⟩,
    fun t i _ => (hinv.circular i).actsAsFifo, fun t s' i hs' hi hleft => ?_⟩
  obtain ⟨-, index, rest, -, rfl⟩ := RobsInv.reserveRob_eq hs'
  obtain rfl : index = i := by simpa using hi
  simp only [Function.update_self]
  exact ⟨rfl, (hleft.alike (hinv.circular index)).sameResults⟩

/-- A GPU core with one buffer of four uops. -/
def oneRobKnobs (fenceEnable : Bool) : BackKnobs :=
  { gpu := true, useWb := false, wbSize := 0, wbFifo := false, acqRel := false
    fenceEnable := fenceEnable, width := 1, robSize := 4, numThreads := 1, maxInsts := 0
    total := fun _ => 0 }

/-- Uop `0` is a fence and uop `1` a load. -/
def fenceAndLoad : UopPtr → BackUop := fun p =>
  { uniqueNum := p, uopNum := p + 1, threadId := 0
    memType := if p = 0 then .notMem else .ld
    uopType := if p = 0 then .fullFence else .other
    barType := .notBar, isitBOM := true, lastUop := false, memVersion := 0, execCycle := 0
    doneCycle := 0, req := fun _ => false, childUops := [] }

/-- The outputs of a load in the buffer that thread `1` reserves after some actions. -/
def loadAfter (k : BackKnobs) (acts : List RobsAct) : Option (Option ℕ × Option (List RobOut)) :=
  ((ThreadRobs.new k Rob.new fenceAndLoad).run k acts).bind fun s =>
    (s.reserveRob 1).map fun s' => (s'.threadToRobMap 1,
      (runOps (fun s (c : RobCall) => c.exec k s) (s'.threadRobs 0, fenceAndLoad)
        [.push 1]).map Prod.fst)

/-- Thread `0` pushes and pops a fence and ends, and thread `1` gets its buffer: the load of
thread `1` gets the version `1`, and version `0` in a new buffer. -/
theorem thread_robs_version_left_over :
    ∃ s s', (ThreadRobs.new (oneRobKnobs true) Rob.new fenceAndLoad).run (oneRobKnobs true)
        [.reserveRob 0, .push 0 0, .pop 0, .freeRob 0] = some s ∧
      s.reserveRob 1 = some s' ∧ s'.threadToRobMap 1 = some 0 ∧
      ¬ SameResults (oneRobKnobs true) (s'.threadRobs 0) (RobBuffer.new 4 Rob.new) := by
  have hleft : loadAfter (oneRobKnobs true) [.reserveRob 0, .push 0 0, .pop 0, .freeRob 0] =
      some (some 0, some [.version 1]) := by decide
  obtain ⟨s, hs, hreserve⟩ := Option.bind_eq_some_iff.mp hleft
  obtain ⟨s', hs', hout⟩ := Option.map_eq_some_iff.mp hreserve
  obtain ⟨hindex, hload⟩ := Prod.mk.inj hout
  refine ⟨s, s', hs, hs', hindex, fun hsame => ?_⟩
  have hnew : (runOps (fun s (c : RobCall) => c.exec (oneRobKnobs true) s)
      (RobBuffer.new 4 Rob.new, fenceAndLoad) [.push 1]).map Prod.fst = some [.version 0] := by
    decide
  have hboth := (hload.symm.trans (hsame fenceAndLoad [.push 1])).trans hnew
  exact absurd hboth (by decide)

/-- Without fences in the order queue, thread `1` gets the results of a new buffer. -/
theorem thread_robs_reserved_as_new :
    ∃ s s', (ThreadRobs.new (oneRobKnobs false) Rob.new fenceAndLoad).run (oneRobKnobs false)
        [.reserveRob 0, .push 0 1, .pop 0, .freeRob 0] = some s ∧
      s.reserveRob 1 = some s' ∧
      SameResults (oneRobKnobs false) (s'.threadRobs 0) (RobBuffer.new 4 Rob.new) := by
  have hload : loadAfter (oneRobKnobs false) [.reserveRob 0, .push 0 1, .pop 0, .freeRob 0] =
      some (some 0, some [.version 0]) := by decide
  obtain ⟨s, hs, hreserve⟩ := Option.bind_eq_some_iff.mp hload
  obtain ⟨s', hs', hout⟩ := Option.map_eq_some_iff.mp hreserve
  obtain ⟨-, -, -, hfresh⟩ := thread_robs_exclusive_and_fresh (oneRobKnobs false) Rob.new
    fenceAndLoad _ s hs
  have hbooks : ((ThreadRobs.new (oneRobKnobs false) Rob.new fenceAndLoad).run (oneRobKnobs false)
      [.reserveRob 0, .push 0 1, .pop 0, .freeRob 0]).map (fun s =>
        (fenceTypes.map (s.threadRobs 0).fences, (s.threadRobs 0).version,
          (s.threadRobs 0).lastFenceVersion, (s.threadRobs 0).orq)) =
      some ([[], [], []], 0, 0, []) := by decide
  rw [hs, Option.map_some, Option.some_inj, Prod.mk.injEq, Prod.mk.injEq, Prod.mk.injEq] at hbooks
  obtain ⟨hfences, hversion, hlast, horq⟩ := hbooks
  have hleft : LeftAsNew (oneRobKnobs false) Rob.new (s.threadRobs 0) := by
    refine ⟨fun _ ft => ?_, fun hwb => Bool.noConfusion hwb, hversion, hlast, horq,
      fun hf => Bool.noConfusion hf⟩
    have hmem : (s.threadRobs 0).fences ft ∈ fenceTypes.map (s.threadRobs 0).fences :=
      List.mem_map_of_mem (by cases ft <;> decide)
    rw [hfences] at hmem
    simpa using hmem
  exact ⟨s, s', hs, hs', (hfresh 1 s' 0 hs' (Prod.mk.inj hout).1 hleft).2⟩

end MacSim.Analysis
