import MacSim.Model.BackEnd

/-!
# The objects of the back end

`Books s l` says that the uops `l` with their children are different objects, none of them in
the pool, that their unique numbers are different, and that none of these numbers has been
released.  Every move of the back end changes `l` in one way: a new uop is added, a uop is
handed from one list to the next, a uop is dropped, or it is released.
-/

set_option autoImplicit false

namespace MacSim.Analysis

open MacSim.Model MacSim.Computation

namespace BackEnd

/-! ## What releasing does -/

/-- The heap after the uops `l` are freed. -/
def freed (heap : UopPtr → BackUop) (l : List UopPtr) (q : UopPtr) : BackUop :=
  if q ∈ l then { heap q with uopNum := 0, threadId := -1 } else heap q

/-- Freeing a list of uops writes their objects and returns them to the pool. -/
theorem foldl_freeUop (l : List UopPtr) (s : BackEnd) :
    l.foldl BackEnd.freeUop s =
      { s with
        heap := freed s.heap l
        pool := l.foldl Arena.release s.pool
        released := s.released ++ l.map fun q => (s.heap q).uniqueNum } := by
  induction l generalizing s with
  | nil =>
      have hheap : freed s.heap [] = s.heap := by
        funext q
        simp [freed]
      simp [hheap]
  | cons p l ih =>
      rw [List.foldl_cons, ih]
      have hnum : ∀ q, ((s.freeUop p).heap q).uniqueNum = (s.heap q).uniqueNum := by
        intro q
        by_cases hq : q = p
        · subst hq
          simp [BackEnd.freeUop, BackEnd.setUop]
        · simp [BackEnd.freeUop, BackEnd.setUop, hq]
      have hheap : freed (s.freeUop p).heap l = freed s.heap (p :: l) := by
        funext q
        by_cases hq : q = p
        · subst hq
          simp [freed, BackEnd.freeUop, BackEnd.setUop]
        · simp [freed, BackEnd.freeUop, BackEnd.setUop, hq]
      rw [hheap, funext hnum]
      simp [BackEnd.freeUop, BackEnd.setUop]

/-- The objects of a uop in the order in which they are freed. -/
def freeOrder (s : BackEnd) (p : UopPtr) : List UopPtr := (s.heap p).childUops ++ [p]

/-- A uop is freed together with its children. -/
theorem freeOrder_perm (s : BackEnd) (p : UopPtr) : (freeOrder s p).Perm (s.own p) :=
  List.perm_append_singleton _ _

/-- Freeing a uop frees its own objects. -/
theorem freeUopResources_eq (s : BackEnd) (p : UopPtr) :
    s.freeUopResources p =
      { s with
        heap := freed s.heap (freeOrder s p)
        pool := (freeOrder s p).foldl Arena.release s.pool
        released := s.released ++ (freeOrder s p).map fun q => (s.heap q).uniqueNum } := by
  rw [← foldl_freeUop, freeOrder, List.foldl_append]
  rfl

/-- Freeing keeps the numbers. -/
@[simp] theorem freed_uniqueNum (heap : UopPtr → BackUop) (l : List UopPtr) (q : UopPtr) :
    (freed heap l q).uniqueNum = (heap q).uniqueNum := by
  unfold freed
  split <;> rfl

/-- Freeing keeps the links to the children. -/
@[simp] theorem freed_childUops (heap : UopPtr → BackUop) (l : List UopPtr) (q : UopPtr) :
    (freed heap l q).childUops = (heap q).childUops := by
  unfold freed
  split <;> rfl

/-- Freeing changes no other object. -/
theorem freed_of_not_mem {heap : UopPtr → BackUop} {l : List UopPtr} {q : UopPtr} (h : q ∉ l) :
    freed heap l q = heap q := by
  unfold freed
  rw [if_neg h]

/-! ## The identity of a uop -/

/-- The numbers and the children of all objects stay. -/
def SameIds (s s' : BackEnd) : Prop :=
  ∀ q, (s'.heap q).uniqueNum = (s.heap q).uniqueNum ∧
    (s'.heap q).childUops = (s.heap q).childUops

/-- The same objects have the same ids. -/
theorem SameIds.of_heap {s s' : BackEnd} (h : s'.heap = s.heap) : SameIds s s' := by
  intro q
  simp [h]

/-- With the same ids a uop owns the same objects. -/
theorem SameIds.own {s s' : BackEnd} (h : SameIds s s') : s'.own = s.own := by
  funext q
  simp [BackEnd.own, (h q).2]

/-- With the same ids a uop has the same numbers. -/
theorem SameIds.numbers {s s' : BackEnd} (h : SameIds s s') : s'.numbers = s.numbers := by
  funext q
  simp [BackEnd.numbers, h.own, fun x => (h x).1]

/-- A write that keeps the number and the children keeps the ids. -/
theorem SameIds.setUop (s : BackEnd) {p : UopPtr} {u : BackUop}
    (hnum : u.uniqueNum = (s.heap p).uniqueNum) (hch : u.childUops = (s.heap p).childUops) :
    SameIds s (s.setUop p u) := by
  intro q
  by_cases hq : q = p
  · subst hq
    simp [BackEnd.setUop, hnum, hch]
  · simp [BackEnd.setUop, hq]

/-! ## The books -/

/-- The objects and the numbers of the uops `l`. -/
structure Books (s : BackEnd) (l : List UopPtr) : Prop where
  owns : s.pool.Owns (l.flatMap s.own)
  nums : (s.released ++ l.flatMap s.numbers).Nodup
  bound : ∀ n ∈ s.released ++ l.flatMap s.numbers, n ≤ s.uniqueUopNum

namespace Books

variable {s s' : BackEnd} {l l' : List UopPtr} {p : UopPtr}

/-- The books do not depend on the order of the list. -/
theorem perm (h : Books s l) (hl : l.Perm l') : Books s l' where
  owns := h.owns.perm (hl.flatMap_right _)
  nums := ((hl.flatMap_right _).append_left _).nodup_iff.mp h.nums
  bound n hn := h.bound n (((hl.flatMap_right _).append_left _).mem_iff.mpr hn)

/-- The books hold of a part of the list. -/
theorem sublist (h : Books s l) (hl : l'.Sublist l) : Books s l' where
  owns := h.owns.sublist (hl.flatMap _)
  nums := h.nums.sublist ((hl.flatMap _).append_left _)
  bound n hn := h.bound n (((hl.flatMap _).append_left _).subset hn)

/-- The books depend on the ids, the pool and the counters only. -/
theorem congr (h : Books s l) (hids : SameIds s s') (hpool : s'.pool = s.pool)
    (hnum : s'.uniqueUopNum = s.uniqueUopNum) (hrel : s'.released = s.released) :
    Books s' l where
  owns := by
    rw [hpool, hids.own]
    exact h.owns
  nums := by
    rw [hrel, hids.numbers]
    exact h.nums
  bound := by
    rw [hrel, hids.numbers, hnum]
    exact h.bound

/-- Two uops of the list share no object. -/
theorem not_mem_own (h : Books s (p :: l)) {q : UopPtr} (hq : q ∈ l) : q ∉ s.own p := by
  have hnd := h.owns.out_nodup
  rw [List.flatMap_cons] at hnd
  intro hp
  exact (List.nodup_append.mp hnd).2.2 q hp q
    (List.mem_flatMap.mpr ⟨q, hq, List.mem_cons_self⟩) rfl

/-- A uop and its children are released. -/
theorem free (h : Books s (p :: l)) : Books (s.freeUopResources p) l := by
  have hids : SameIds s (s.freeUopResources p) := by
    intro q
    simp [freeUopResources_eq]
  have hperm := freeOrder_perm s p
  have hrel : (s.freeUopResources p).released =
      s.released ++ (freeOrder s p).map fun q => (s.heap q).uniqueNum := by
    rw [freeUopResources_eq]
  have hall : ((s.freeUopResources p).released ++ l.flatMap s.numbers).Perm
      (s.released ++ (p :: l).flatMap s.numbers) := by
    rw [hrel, List.append_assoc, List.flatMap_cons]
    exact ((hperm.map _).append_right _).append_left _
  have howns : ∀ (x : List UopPtr) (a : Arena), a.Owns (x ++ l.flatMap s.own) →
      (x.foldl Arena.release a).Owns (l.flatMap s.own) := by
    intro x
    induction x with
    | nil => exact fun a ha => ha
    | cons q x ih => exact fun a ha => ih _ ha.release
  constructor
  · rw [hids.own, freeUopResources_eq]
    refine howns _ _ (h.owns.perm ?_)
    rw [List.flatMap_cons]
    exact hperm.symm.append_right _
  · rw [hids.numbers]
    exact hall.nodup_iff.mpr h.nums
  · rw [hids.numbers]
    intro n hn
    have hnum : (s.freeUopResources p).uniqueUopNum = s.uniqueUopNum := by
      rw [freeUopResources_eq]
    rw [hnum]
    exact h.bound n (hall.mem_iff.mp hn)

end Books

/-! ## New uops -/

/-- Fetch changes the heap, the pool and the counter of numbers; the uops `l` stay as they are. -/
structure Grew (s s' : BackEnd) (l : List UopPtr) : Prop where
  fields : ∃ heap pool num, s' = { s with heap := heap, pool := pool, uniqueUopNum := num }
  heap : ∀ q ∈ l.flatMap s.own, s'.heap q = s.heap q

namespace Grew

variable {s s' s'' : BackEnd} {l : List UopPtr}

/-- The uops of the list are not touched when it grows. -/
theorem self {q : UopPtr} (h : Grew s s' l) (hq : q ∈ l) : s'.heap q = s.heap q :=
  h.heap q (List.mem_flatMap.mpr ⟨q, hq, List.mem_cons_self⟩)

/-- The uops of the list own the objects they owned before. -/
theorem own {q : UopPtr} (h : Grew s s' l) (hq : q ∈ l) : s'.own q = s.own q := by
  rw [BackEnd.own, BackEnd.own, h.self hq]

/-- The uops of the list have the numbers they had before. -/
theorem numbers {q : UopPtr} (h : Grew s s' l) (hq : q ∈ l) : s'.numbers q = s.numbers q := by
  rw [BackEnd.numbers, BackEnd.numbers, h.own hq]
  refine List.map_congr_left fun x hx => ?_
  rw [h.heap x (List.mem_flatMap.mpr ⟨q, hq, hx⟩)]

/-- The list owns the objects it owned before. -/
theorem flatMap_own (h : Grew s s' l) : l.flatMap s'.own = l.flatMap s.own :=
  List.flatMap_congr fun _ hq => h.own hq

/-- The list has the numbers it had before. -/
theorem flatMap_numbers (h : Grew s s' l) : l.flatMap s'.numbers = l.flatMap s.numbers :=
  List.flatMap_congr fun _ hq => h.numbers hq

/-- Nothing has to change. -/
theorem refl (s : BackEnd) (l : List UopPtr) : Grew s s l := ⟨⟨_, _, _, rfl⟩, fun _ _ => rfl⟩

/-- One growth may follow another. -/
theorem trans (h : Grew s s' l) (h' : Grew s' s'' l) : Grew s s'' l where
  fields := by
    obtain ⟨_, _, _, rfl⟩ := h.fields
    obtain ⟨_, _, _, rfl⟩ := h'.fields
    exact ⟨_, _, _, rfl⟩
  heap q hq := by
    rw [h'.heap q (by rw [h.flatMap_own]; exact hq), h.heap q hq]

end Grew

namespace Books

variable {s : BackEnd} {l : List UopPtr} {p : UopPtr}

/-- The object that the pool hands out next. -/
theorem next_not_mem (h : Books s l) (u : ℕ → BackUop) : (s.newUop u).1 ∉ l.flatMap s.own :=
  h.owns.acquire_not_mem _

/-- A new uop touches no uop of the list. -/
theorem newUop_grew (h : Books s l) (u : ℕ → BackUop) : Grew s (s.newUop u).2 l where
  fields := ⟨_, _, _, rfl⟩
  heap q hq := by
    have hne : q ≠ (s.newUop u).1 := fun heq => h.next_not_mem u (heq ▸ hq)
    exact Function.update_of_ne hne _ _

/-- The next number is new. -/
theorem next_number (h : Books s l) :
    (s.released ++ (s.uniqueUopNum + 1) :: l.flatMap s.numbers).Nodup ∧
      ∀ n ∈ s.released ++ (s.uniqueUopNum + 1) :: l.flatMap s.numbers,
        n ≤ s.uniqueUopNum + 1 := by
  constructor
  · refine List.perm_middle.nodup_iff.mpr (List.nodup_cons.mpr ⟨fun hmem => ?_, h.nums⟩)
    have := h.bound _ hmem
    omega
  · intro n hn
    rcases List.mem_cons.mp (List.perm_middle.mem_iff.mp hn) with rfl | hn
    · exact le_rfl
    · have := h.bound n hn
      omega

/-- A new uop joins the books. -/
theorem newUop (h : Books s l) {u : ℕ → BackUop} (hnum : ∀ n, (u n).uniqueNum = n)
    (hch : ∀ n, (u n).childUops = []) : Books (s.newUop u).2 ((s.newUop u).1 :: l) := by
  have hg := h.newUop_grew u
  have hself : (s.newUop u).2.heap (s.newUop u).1 = u (s.uniqueUopNum + 1) :=
    Function.update_self _ _ _
  have hown : ((s.newUop u).1 :: l).flatMap (s.newUop u).2.own =
      (s.newUop u).1 :: l.flatMap s.own := by
    rw [List.flatMap_cons, hg.flatMap_own, BackEnd.own, hself, hch]
    rfl
  have hnums : ((s.newUop u).1 :: l).flatMap (s.newUop u).2.numbers =
      (s.uniqueUopNum + 1) :: l.flatMap s.numbers := by
    rw [List.flatMap_cons, hg.flatMap_numbers, BackEnd.numbers, BackEnd.own, hself, hch]
    simp [hself, hnum]
  constructor
  · rw [hown]
    exact h.owns.acquire _
  · rw [hnums]
    exact h.next_number.1
  · rw [hnums]
    exact h.next_number.2

/-- A child is added to the first uop of the books. -/
theorem addChild (h : Books s (p :: l)) :
    Books (BackEnd.addChild p s) (p :: l) ∧ Grew s (BackEnd.addChild p s) l := by
  let u : ℕ → BackUop := fun num => { s.heap p with uniqueNum := num }
  let c := (s.newUop u).1
  let s₁ := (s.newUop u).2
  have hg : Grew s s₁ (p :: l) := h.newUop_grew u
  have hc : c ∉ (p :: l).flatMap s.own := h.next_not_mem u
  rw [List.flatMap_cons, List.mem_append] at hc
  have hp : p ∉ l.flatMap s.own := by
    have hnd := h.owns.out_nodup
    rw [List.flatMap_cons, BackEnd.own, List.cons_append, List.nodup_cons] at hnd
    exact fun hmem => hnd.1 (List.mem_append_right _ hmem)
  have hcp : c ≠ p := fun heq => hc (.inl (heq ▸ List.mem_cons_self))
  have hadd : BackEnd.addChild p s =
      s₁.setUop p { s₁.heap p with childUops := (s₁.heap p).childUops ++ [c] } := rfl
  have hnum : ∀ q, ((BackEnd.addChild p s).heap q).uniqueNum = (s₁.heap q).uniqueNum := by
    intro q
    rw [hadd]
    by_cases hq : q = p
    · subst hq
      simp [BackEnd.setUop]
    · simp [BackEnd.setUop, hq]
  have hcnum : (s₁.heap c).uniqueNum = s.uniqueUopNum + 1 := by
    have : s₁.heap c = u (s.uniqueUopNum + 1) := Function.update_self _ _ _
    rw [this]
  have hpown : (BackEnd.addChild p s).own p = s.own p ++ [c] := by
    rw [hadd, BackEnd.own, BackEnd.own]
    simp [BackEnd.setUop, hg.self List.mem_cons_self]
  have hpnums : (BackEnd.addChild p s).numbers p = s.numbers p ++ [s.uniqueUopNum + 1] := by
    rw [BackEnd.numbers, hpown, List.map_append, List.map_singleton, hnum, hcnum,
      ← hg.numbers List.mem_cons_self, BackEnd.numbers, hg.own List.mem_cons_self]
    congr 1
    exact List.map_congr_left fun q _ => hnum q
  have hgrew : Grew s (BackEnd.addChild p s) l := by
    refine ⟨⟨_, _, _, rfl⟩, fun q hq => ?_⟩
    have hqp : q ≠ p := fun heq => hp (heq ▸ hq)
    have hrest : (s₁.setUop p { s₁.heap p with
        childUops := (s₁.heap p).childUops ++ [c] }).heap q = s₁.heap q :=
      Function.update_of_ne hqp _ _
    rw [hadd, hrest]
    exact hg.heap q (by rw [List.flatMap_cons]; exact List.mem_append_right _ hq)
  have hown : ((p :: l).flatMap (BackEnd.addChild p s).own).Perm
      (c :: (p :: l).flatMap s.own) := by
    rw [List.flatMap_cons, hpown, hgrew.flatMap_own, List.flatMap_cons, List.append_assoc]
    exact List.perm_middle
  have hnums : ((p :: l).flatMap (BackEnd.addChild p s).numbers).Perm
      ((s.uniqueUopNum + 1) :: (p :: l).flatMap s.numbers) := by
    rw [List.flatMap_cons, hpnums, hgrew.flatMap_numbers, List.flatMap_cons, List.append_assoc]
    exact List.perm_middle
  have howns : s₁.pool.Owns (c :: (p :: l).flatMap s.own) := h.owns.acquire _
  have hall := hnums.append_left s.released
  refine ⟨⟨howns.perm hown.symm, hall.nodup_iff.mpr h.next_number.1, fun n hn => ?_⟩, hgrew⟩
  exact h.next_number.2 n (hall.mem_iff.mp hn)

/-- Children join the books with their parent and touch no other uop. -/
theorem addChildren (h : Books s (p :: l)) (m : ℕ) :
    Books ((BackEnd.addChild p)^[m] s) (p :: l) ∧ Grew s ((BackEnd.addChild p)^[m] s) l := by
  induction m with
  | zero => exact ⟨h, Grew.refl s l⟩
  | succ m ih =>
      rw [Function.iterate_succ_apply']
      exact ⟨ih.1.addChild.1, ih.2.trans ih.1.addChild.2⟩

/-- Fetch adds a uop at the end of the frontend queue. -/
theorem fetch (h : Books s l) (n : NewUop) : ∃ p s', Books s' (p :: l) ∧ Grew s s' l ∧
    s.fetch n = { s' with frontendQ := s'.frontendQ ++ [p] } := by
  have hnew := h.newUop (u := n.init) (fun _ => rfl) (fun _ => rfl)
  obtain ⟨hb, hg⟩ := hnew.addChildren n.numChildUops
  exact ⟨_, _, hb, (h.newUop_grew n.init).trans hg, rfl⟩

end Books

end BackEnd

end MacSim.Analysis
