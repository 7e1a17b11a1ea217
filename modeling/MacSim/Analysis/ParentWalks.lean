import MacSim.Model.ParentWalks
import MacSim.Analysis.Translation

/-!
# The books of page walks

The counter of a parent uop goes with the children in the walk queue and in the queue of faults
that are tried again, and the set of fault parents with the parents that have such a child.  Two
things break the books: an attempt to execute a parent sets its counter to zero, also while
children of an earlier attempt still wait; and a walk that finds its page takes the parent off
the counter but not out of the set.
-/

set_option autoImplicit false

namespace MacSim.Analysis

open MacSim.Model MacSim.Computation

/-- The uops in the walk queue and in the queue of faults that are tried again. -/
def walking (s : Mmu) : List ℕ := uopsOf s.walkQueuePage ++ s.faultRetryQueue

/-- The number of children of a parent in a list of uops. -/
def childrenIn (s : Mmu) (p : ℕ) (l : List ℕ) : ℕ :=
  l.countP fun u => decide ((s.uops u).parent = some p)

/-- The counters of the executed parents count their children in a list, and the sets of fault
parents have only numbers of parents with a child in it. -/
structure WalkBooks (issued : ℕ → Bool) (s : Mmu) (l : List ℕ) : Prop where
  counted : ∀ p, issued p = true → (s.uops p).numPageTableWalks = childrenIn s p l
  inSet : ∀ core thread n, n ∈ s.faultParents core thread → ∃ p, (s.uops p).coreId = core ∧
    (s.uops p).threadId = thread ∧ (s.uops p).uopNum = n ∧ 0 < childrenIn s p l

/-- The uop has no parent, or is a child of an executed one. -/
def OfIssued (issued : ℕ → Bool) (s : Mmu) (u : ℕ) : Prop :=
  ∀ p, (s.uops u).parent = some p → issued p = true ∧ IssuingCore.ChildOf s p u

/-- What identifies a uop. -/
def nameOf (u : MmuUop) : Option ℕ × ℕ × ℕ × ℕ := (u.parent, u.coreId, u.threadId, u.uopNum)

/-- The uops are still the same. -/
def SameNames (s s' : Mmu) : Prop := ∀ v, nameOf (s'.uops v) = nameOf (s.uops v)

/-- Only addresses, states and the page tables have changed. -/
structure SameMarks (s s' : Mmu) : Prop where
  names : SameNames s s'
  walks : ∀ v, (s'.uops v).numPageTableWalks = (s.uops v).numPageTableWalks
  parents : s'.faultParents = s.faultParents

variable {k : MmuKnobs} {s s' s'' : Mmu} {issued : ℕ → Bool} {u : ℕ} {l l' : List ℕ}

/-- The uops are the same as themselves. -/
theorem SameNames.refl (s : Mmu) : SameNames s s := fun _ => rfl

/-- Keeping the uops is transitive. -/
theorem SameNames.trans (h : SameNames s s') (h' : SameNames s' s'') : SameNames s s'' :=
  fun v => (h' v).trans (h v)

/-- The same uops have the same parents. -/
theorem SameNames.parent (h : SameNames s s') (v : ℕ) : (s'.uops v).parent = (s.uops v).parent :=
  congrArg Prod.fst (h v)

/-- The same uops have the same cores. -/
theorem SameNames.coreId (h : SameNames s s') (v : ℕ) : (s'.uops v).coreId = (s.uops v).coreId :=
  congrArg (fun x => x.2.1) (h v)

/-- The same uops have the same threads. -/
theorem SameNames.threadId (h : SameNames s s') (v : ℕ) :
    (s'.uops v).threadId = (s.uops v).threadId :=
  congrArg (fun x => x.2.2.1) (h v)

/-- The same uops have the same numbers. -/
theorem SameNames.uopNum (h : SameNames s s') (v : ℕ) : (s'.uops v).uopNum = (s.uops v).uopNum :=
  congrArg (fun x => x.2.2.2) (h v)

/-- The same uops are the same children. -/
theorem SameNames.childrenIn (h : SameNames s s') (p : ℕ) (l : List ℕ) :
    childrenIn s' p l = childrenIn s p l := by
  unfold MacSim.Analysis.childrenIn
  simp only [h.parent]

/-- The same uops are of those issued. -/
theorem SameNames.ofIssued (h : SameNames s s') (hu : OfIssued issued s u) :
    OfIssued issued s' u := by
  intro p hp
  rw [h.parent] at hp
  obtain ⟨hi, -, hcore, hthread⟩ := hu p hp
  refine ⟨hi, (h.parent u).trans hp, ?_, ?_⟩
  · rw [h.coreId, h.coreId, hcore]
  · rw [h.threadId, h.threadId, hthread]

/-- A unit has the same marks as itself. -/
theorem SameMarks.refl (s : Mmu) : SameMarks s s := ⟨.refl s, fun _ => rfl, rfl⟩

/-- Keeping the marks is transitive. -/
theorem SameMarks.trans (h : SameMarks s s') (h' : SameMarks s' s'') : SameMarks s s'' :=
  ⟨h.names.trans h'.names, fun v => (h'.walks v).trans (h.walks v), h'.parents.trans h.parents⟩

/-- A write to a uop that leaves its name and its counter alone. -/
theorem SameMarks.modifyUop (s : Mmu) (u : ℕ) {f : MmuUop → MmuUop}
    (hname : ∀ x, nameOf (f x) = nameOf x)
    (hwalks : ∀ x, (f x).numPageTableWalks = x.numPageTableWalks) :
    SameMarks s (s.modifyUop u f) := by
  have hat : ∀ v, ((s.modifyUop u f).uops v) = if v = u then f (s.uops u) else s.uops v :=
    fun v => Function.update_apply _ _ _ _
  refine ⟨fun v => ?_, fun v => ?_, rfl⟩
  · rw [hat]
    split
    · next hv => rw [hv, hname]
    · rfl
  · rw [hat]
    split
    · next hv => rw [hv, hwalks]
    · rfl

/-- The state of a uop is no mark. -/
theorem SameMarks.setState (s : Mmu) (u : ℕ) (state : TransState) :
    SameMarks s (s.setState u state) :=
  .modifyUop s u (fun _ => rfl) fun _ => rfl

/-- The children in a list do not depend on its order. -/
theorem childrenIn_perm (s : Mmu) (p : ℕ) (h : l.Perm l') : childrenIn s p l = childrenIn s p l' :=
  h.countP_eq _

/-- One more uop adds a child if its parent is the one asked for. -/
theorem childrenIn_cons (s : Mmu) (p u : ℕ) (l : List ℕ) :
    childrenIn s p (u :: l) = childrenIn s p l + if (s.uops u).parent = some p then 1 else 0 := by
  unfold childrenIn
  rw [List.countP_cons]
  simp

/-- The books of walks do not depend on the order of the list. -/
theorem WalkBooks.perm (h : WalkBooks issued s l) (hl : l.Perm l') : WalkBooks issued s l' where
  counted p hp := by rw [h.counted p hp, childrenIn_perm s p hl]
  inSet core thread n hn := by
    obtain ⟨p, hcore, hthread, hnum, hpos⟩ := h.inSet core thread n hn
    exact ⟨p, hcore, hthread, hnum, childrenIn_perm s p hl ▸ hpos⟩

/-- A step that keeps the marks keeps the books of walks. -/
theorem WalkBooks.marks (h : WalkBooks issued s l) (hm : SameMarks s s') :
    WalkBooks issued s' l where
  counted p hp := by rw [hm.walks, h.counted p hp, hm.names.childrenIn]
  inSet core thread n hn := by
    obtain ⟨p, hcore, hthread, hnum, hpos⟩ := h.inSet core thread n (hm.parents ▸ hn)
    refine ⟨p, (hm.names.coreId p).trans hcore, (hm.names.threadId p).trans hthread,
      (hm.names.uopNum p).trans hnum, ?_⟩
    rw [hm.names.childrenIn]
    exact hpos

/-! ## The counter -/

/-- The counter of the parent of a uop has changed. -/
structure Counted (s : Mmu) (u : ℕ) (d : ℤ) (s' : Mmu) : Prop where
  names : SameNames s s'
  walks : ∀ p, (s'.uops p).numPageTableWalks =
    (s.uops p).numPageTableWalks + if (s.uops u).parent = some p then d else 0
  parents : s'.faultParents = s.faultParents

/-- Adding to the walks of the parent of a uop is the change of one counter. -/
theorem addWalks_counted (s : Mmu) (u : ℕ) (d : ℤ) : Counted s u d (s.addWalks u d) := by
  unfold Mmu.addWalks
  split
  · next hnone => exact ⟨.refl s, fun p => by simp [hnone], rfl⟩
  · next p hp =>
    have hat : ∀ v, ((s.modifyUop p fun uop => { uop with
        numPageTableWalks := uop.numPageTableWalks + d }).uops v) =
        if v = p then { s.uops p with numPageTableWalks := (s.uops p).numPageTableWalks + d }
        else s.uops v := fun v => Function.update_apply _ _ _ _
    refine ⟨fun v => ?_, fun v => ?_, rfl⟩
    · rw [hat]
      split
      · next hv =>
        rw [hv]
        rfl
      · rfl
    · rw [hat, hp]
      by_cases hv : v = p
      · simp [hv]
      · simp [hv, Ne.symm hv]

/-- A child joins the list and is counted. -/
theorem WalkBooks.join (h : WalkBooks issued s l) (hc : Counted s u 1 s') :
    WalkBooks issued s' (u :: l) where
  counted p hp := by
    rw [hc.walks, h.counted p hp, hc.names.childrenIn, childrenIn_cons]
    split <;> simp
  inSet core thread n hn := by
    obtain ⟨p, hcore, hthread, hnum, hpos⟩ := h.inSet core thread n (hc.parents ▸ hn)
    refine ⟨p, (hc.names.coreId p).trans hcore, (hc.names.threadId p).trans hthread,
      (hc.names.uopNum p).trans hnum, ?_⟩
    rw [hc.names.childrenIn, childrenIn_cons]
    omega

/-- The walk of the uop would leave its parent in the set of fault parents without a child that
waits. -/
def LeavesNone (s : Mmu) (u : ℕ) : Prop :=
  ∃ p, (s.uops u).parent = some p ∧
    (s.uops p).uopNum ∈ s.faultParents (s.uops u).coreId (s.uops u).threadId ∧
    (s.uops p).numPageTableWalks = 1

/-- A child leaves the list and is not counted any more; its parent is not in the set, or has
another child in the list. -/
theorem WalkBooks.leave (h : WalkBooks issued s (u :: l)) (hu : OfIssued issued s u)
    (hc : Counted s u (-1) s') (hkeep : ¬ LeavesNone s u) : WalkBooks issued s' l where
  counted p hp := by
    have hold := h.counted p hp
    rw [childrenIn_cons] at hold
    rw [hc.walks, hc.names.childrenIn, hold]
    split <;> simp
  inSet core thread n hn := by
    obtain ⟨p, hcore, hthread, hnum, hpos⟩ := h.inSet core thread n (hc.parents ▸ hn)
    refine ⟨p, (hc.names.coreId p).trans hcore, (hc.names.threadId p).trans hthread,
      (hc.names.uopNum p).trans hnum, ?_⟩
    rw [hc.names.childrenIn]
    by_contra hzero
    rw [childrenIn_cons] at hpos
    by_cases hp : (s.uops u).parent = some p
    · -- the child was the last one of its parent
      obtain ⟨hissued, -, hcore', hthread'⟩ := hu p hp
      have hcount := h.counted p hissued
      rw [childrenIn_cons, if_pos hp] at hcount
      refine hkeep ⟨p, hp, ?_, by omega⟩
      rw [hcore', hthread', hnum, hcore, hthread]
      exact hc.parents ▸ hn
    · rw [if_neg hp] at hpos
      omega

/-! ## Walks -/

/-- A last child is the last one under the same marks. -/
theorem SameMarks.leavesNone (h : SameMarks s s') (hl : LeavesNone s' u) : LeavesNone s u := by
  obtain ⟨p, hp, hin, hone⟩ := hl
  rw [h.parents, h.names.uopNum, h.names.coreId, h.names.threadId] at hin
  exact ⟨p, (h.names.parent u).symm.trans hp, hin, (h.walks p).symm.trans hone⟩

/-- A uop without a parent does not count. -/
theorem WalkBooks.drop (h : WalkBooks issued s (u :: l)) (hu : (s.uops u).parent = none) :
    WalkBooks issued s l := by
  have hsame : ∀ p, childrenIn s p (u :: l) = childrenIn s p l := fun p => by
    rw [childrenIn_cons, hu, if_neg (by simp), Nat.add_zero]
  refine ⟨fun p hp => hsame p ▸ h.counted p hp, fun core thread n hn => ?_⟩
  obtain ⟨p, hcore, hthread, hnum, hpos⟩ := h.inSet core thread n hn
  exact ⟨p, hcore, hthread, hnum, hsame p ▸ hpos⟩

/-- A walk that finds its page takes its uop off the books. -/
theorem WalkBooks.walkDone (h : WalkBooks issued s (u :: l)) (hu : OfIssued issued s u)
    (hkeep : ¬ LeavesNone s u) (frame : ℕ) :
    WalkBooks issued (s.walkDone k u frame) l ∧ SameNames s (s.walkDone k u frame) := by
  unfold Mmu.walkDone
  extract_lets t
  have hm : SameMarks s t := .modifyUop s u (fun _ => rfl) fun _ => rfl
  have ht := h.marks hm
  have hut := hm.names.ofIssued hu
  split
  · next hzero =>
    -- a parent with a child in the list has not counted down to zero
    exfalso
    obtain ⟨p, hp, hwalks⟩ := Option.map_eq_some_iff.mp hzero
    have hcount := ht.counted p (hut p hp).1
    rw [childrenIn_cons, if_pos hp] at hcount
    omega
  · have hc := addWalks_counted t u (-1)
    exact ⟨ht.leave hut hc fun hl => hkeep (hm.leavesNone hl), hm.names.trans hc.names⟩

/-- A walk that becomes a fault takes its uop off the books. -/
theorem WalkBooks.noteFault (h : WalkBooks issued s (u :: l)) (hu : OfIssued issued s u) :
    WalkBooks issued (s.noteFault u) l ∧ SameNames s (s.noteFault u) := by
  unfold Mmu.noteFault
  split
  · next hnone => exact ⟨h.drop hnone, .refl s⟩
  · next p hp =>
    extract_lets t core thread parents perThread
    have hc := addWalks_counted s u (-1)
    obtain ⟨hissued, -, hcore, hthread⟩ := hu p hp
    have hwalks : (t.uops p).numPageTableWalks = childrenIn s p l := by
      have hold := h.counted p hissued
      rw [childrenIn_cons, if_pos hp] at hold
      rw [hc.walks, if_pos hp, hold]
      simp
    have hother : ∀ q, q ≠ p → childrenIn s q (u :: l) = childrenIn s q l := fun q hq => by
      rw [childrenIn_cons, hp, if_neg fun he => hq (Option.some.inj he).symm, Nat.add_zero]
    -- what the set says of other parents stays true
    have hrest : ∀ c t' n, n ∈ s.faultParents c t' → ¬ (c = core ∧ t' = thread) ∨
        (t.uops p).numPageTableWalks ≠ 0 → ∃ q, (s.uops q).coreId = c ∧
          (s.uops q).threadId = t' ∧ (s.uops q).uopNum = n ∧ 0 < childrenIn s q l := by
      intro c t' n hn hcase
      obtain ⟨q, hqc, hqt, hqn, hpos⟩ := h.inSet c t' n hn
      refine ⟨q, hqc, hqt, hqn, ?_⟩
      by_cases hq : q = p
      · subst hq
        rcases hcase with hne | hne
        · refine absurd ⟨?_, ?_⟩ hne
          · rw [← hqc, ← hcore]
            exact (hc.names.coreId u).symm
          · rw [← hqt, ← hthread]
            exact (hc.names.threadId u).symm
        · omega
      · exact hother q hq ▸ hpos
    refine ⟨⟨fun q hq => ?_, fun c t' n hn => ?_⟩, fun v => hc.names v⟩
    · show (t.uops q).numPageTableWalks = childrenIn t q l
      rw [hc.names.childrenIn]
      by_cases hqp : q = p
      · rw [hqp]
        exact hwalks
      · rw [hc.walks, hp, if_neg fun he => hqp (Option.some.inj he).symm, h.counted q hq,
          hother q hqp, add_zero]
    · suffices ∃ q, (s.uops q).coreId = c ∧ (s.uops q).threadId = t' ∧ (s.uops q).uopNum = n ∧
          0 < childrenIn s q l by
        obtain ⟨q, hqc, hqt, hqn, hpos⟩ := this
        refine ⟨q, (hc.names.coreId q).trans hqc, (hc.names.threadId q).trans hqt,
          (hc.names.uopNum q).trans hqn, ?_⟩
        show 0 < childrenIn t q l
        rw [hc.names.childrenIn]
        exact hpos
      have hn : n ∈ Function.update t.faultParents core perThread c t' := hn
      by_cases hcc : c = core
      · subst hcc
        rw [Function.update_self] at hn
        have hn : n ∈ Function.update (t.faultParents core) thread parents t' := hn
        by_cases htt : t' = thread
        · subst htt
          rw [Function.update_self] at hn
          have hn : n ∈ if (t.uops p).numPageTableWalks = 0 then [] else
            (t.uops p).uopNum :: t.faultParents core thread := hn
          split at hn
          · exact absurd hn List.not_mem_nil
          · next hne =>
            rcases List.mem_cons.mp hn with rfl | hn
            · refine ⟨p, ?_, ?_, (hc.names.uopNum p).symm, by omega⟩
              · rw [← hcore]
                exact (hc.names.coreId u).symm
              · rw [← hthread]
                exact (hc.names.threadId u).symm
            · exact hrest _ _ n (hc.parents ▸ hn) (.inr hne)
        · rw [Function.update_of_ne htt] at hn
          exact hrest _ _ n (hc.parents ▸ hn) (.inl fun hh => htt hh.2)
      · rw [Function.update_of_ne hcc] at hn
        exact hrest _ _ n (hc.parents ▸ hn) (.inl fun hh => hcc hh.1)

/-- The walk for the uop finds its page, and the parent would be left in the set of fault parents
without a child that waits. -/
def FoundLast (k : MmuKnobs) (s : Mmu) (u : ℕ) : Prop :=
  (∃ key, k.keyOf (s.uops u) = .ok key ∧ s.pageTable key ≠ none) ∧ LeavesNone s u

/-- The uops of a list are walked; `others` wait in the walk queue for another page. -/
structure Balanced (issued : ℕ → Bool) (others : List ℕ) (s₀ : Mmu) (rest : List ℕ) (s : Mmu) :
    Prop where
  books : WalkBooks issued s (rest ++ (others ++ s.faultRetryQueue))
  family : ∀ u ∈ rest, OfIssued issued s u
  names : SameNames s₀ s
  pages : s.walkQueuePage = s₀.walkQueuePage
  waiting : s.waiting = s₀.waiting

/-- One walk keeps the books of the rest of the page, when it takes no parent away. -/
theorem Balanced.walk {others rest : List ℕ} {s₀ : Mmu}
    (h : Balanced issued others s₀ (u :: rest) s) (hkeep : ¬ FoundLast k s u) :
    Meets (s.doPageTableWalks k u) (Balanced issued others s₀ rest) (fun _ => True) := by
  have hu := h.family u List.mem_cons_self
  unfold Mmu.doPageTableWalks
  cases hkey : k.keyOf (s.uops u) with
  | error e => exact True.intro
  | ok key =>
      dsimp only [bind, Except.bind]
      split
      · next frame hframe =>
        have hlast : ¬ LeavesNone s u := fun hl =>
          hkeep ⟨⟨key, hkey, by rw [hframe]; simp⟩, hl⟩
        obtain ⟨hbooks, hnames⟩ := h.books.walkDone (k := k) hu hlast frame
        obtain ⟨uops, hu'⟩ := walkDone_eq k s u frame
        unfold Mmu.pageTableHit
        split
        · exact True.intro
        · exact True.intro
        · rw [hu'] at hbooks hnames ⊢
          exact ⟨⟨hbooks.counted, hbooks.inSet⟩,
            fun v hv => hnames.ofIssued (h.family v (List.mem_cons_of_mem _ hv)),
            h.names.trans hnames, h.pages, h.waiting⟩
      · unfold Mmu.pageFault
        split
        · have hm := SameMarks.setState s u .faultRetryQueue
          have hbooks : WalkBooks issued (s.setState u .faultRetryQueue)
              (rest ++ (others ++ (s.faultRetryQueue ++ [u]))) :=
            (h.books.marks hm).perm (by
              simpa using (List.perm_append_singleton u
                (rest ++ (others ++ s.faultRetryQueue))).symm)
          exact ⟨⟨hbooks.counted, hbooks.inSet⟩,
            fun v hv => hm.names.ofIssued (h.family v (List.mem_cons_of_mem _ hv)),
            h.names.trans hm.names, h.pages, h.waiting⟩
        · generalize ht : ({ s with
            faultBuffer := if key ∈ s.faultBuffer then s.faultBuffer else s.faultBuffer ++ [key]
            faultUops := s.faultUops.push key u } : Mmu) = t
          have hbooks : WalkBooks issued t (u :: rest ++ (others ++ s.faultRetryQueue)) := by
            rw [← ht]
            exact ⟨h.books.counted, h.books.inSet⟩
          have hut : OfIssued issued t u := by
            rw [← ht]
            exact hu
          obtain ⟨hbooks', hnames⟩ := hbooks.noteFault hut
          have hm := SameMarks.setState (t.noteFault u) u .faultBuffer
          have hst : SameNames s t := by
            rw [← ht]
            exact .refl s
          have hall : SameNames s ((t.noteFault u).setState u .faultBuffer) :=
            hst.trans (hnames.trans hm.names)
          obtain ⟨uops, parents, hn⟩ := noteFault_eq t u
          have hfinal := hbooks'.marks hm
          dsimp only
          rw [hn, ← ht] at hfinal hall ⊢
          exact ⟨⟨hfinal.counted, hfinal.inSet⟩,
            fun v hv => hall.ofIssued (h.family v (List.mem_cons_of_mem _ hv)),
            h.names.trans hall, h.pages, h.waiting⟩

/-- No walk of the list takes the last child off a parent in the set. -/
def WalksKeep (k : MmuKnobs) (l : List ℕ) (s : Mmu) : Prop :=
  EachStep (fun s u => (s.doPageTableWalks k u).toOption) (fun s u => ¬ FoundLast k s u) s l

/-- The walks of a page keep the books, when they take no parent away. -/
theorem Balanced.walks {others : List ℕ} {s₀ : Mmu} (h : Balanced issued others s₀ l s)
    (hkeep : WalksKeep k l s) :
    Meets (l.foldlM (Mmu.doPageTableWalks k) s) (Balanced issued others s₀ []) (fun _ => True) :=
  Meets.foldlM_eachStep l s h hkeep fun _ _ _ ht hp => ht.walk hp

/-! ## A cycle -/

/-- What a part of a cycle keeps: the books of the uops that wait for a walk, and that every uop
which waits is of an executed parent. -/
structure WalkAccounted (issued : ℕ → Bool) (s : Mmu) : Prop where
  books : WalkBooks issued s (walking s)
  family : ∀ u, s.waiting u = true → OfIssued issued s u
  queues : Queues s

/-- A uop in a walk queue waits for its walk. -/
theorem Queues.waiting_of_mem (h : Queues s) (hu : u ∈ uopsOf s.walkQueuePage ++ placed s) :
    s.waiting u = true := by
  have hcount := h.custody u
  have hpos := List.count_pos_iff.mpr hu
  rw [List.count_append] at hpos
  by_contra hne
  rw [if_neg hne] at hcount
  omega

/-- Adding a uop at a page puts it before the others. -/
theorem uopsOf_push_perm (m : UopMap) (key : PageKey) (u : ℕ) :
    (uopsOf (m.push key u)).Perm (u :: uopsOf m) := by
  rw [List.perm_iff_count]
  intro v
  simp [count_uopsOf_push, List.count_cons]

/-- Erasing a page takes its uops from the others. -/
theorem uopsOf_erase_perm (m : UopMap) (key : PageKey) :
    (uopsOf m).Perm ((m.lookup key).getD [] ++ uopsOf (m.erase key)) := by
  rw [List.perm_iff_count]
  intro v
  have h := count_uopsOf_erase m key v
  rw [List.count_append]
  omega

/-- What `translate` does to the books. -/
structure TranslatedBooks (s : Mmu) (u : ℕ) (s' : Mmu) : Prop where
  books : ∀ issued, WalkBooks issued s (walking s) → WalkBooks issued s' (walking s')
  names : SameNames s s'
  waiting : ∀ v, s'.waiting v = true → s.waiting v = true ∨ v = u

/-- Joining a walk keeps the books. -/
theorem joinWalk_books (k : MmuKnobs) (s : Mmu) (u : ℕ) (key : PageKey) :
    TranslatedBooks s u (s.joinWalk k u key) := by
  unfold Mmu.joinWalk
  extract_lets t₁ t₂ t₃
  have hwait : t₂.waiting = s.waiting := by
    show t₁.waiting = s.waiting
    unfold t₁
    split <;> rfl
  have hpages : t₂.walkQueuePage = s.walkQueuePage.push key u := by
    show t₁.walkQueuePage.push key u = _
    unfold t₁
    split <;> rfl
  have hretry : t₂.faultRetryQueue = s.faultRetryQueue := by
    show t₁.faultRetryQueue = _
    unfold t₁
    split <;> rfl
  have hm₂ : SameMarks s t₂ := by
    have huops : t₂.uops = s.uops ∧ t₂.faultParents = s.faultParents := by
      show t₁.uops = s.uops ∧ t₁.faultParents = s.faultParents
      unfold t₁
      split <;> exact ⟨rfl, rfl⟩
    refine ⟨fun v => ?_, fun v => ?_, huops.2⟩
    · rw [huops.1]
    · rw [huops.1]
  have hm : SameMarks s (t₂.setState u .walkQueue) := hm₂.trans (.setState t₂ u .walkQueue)
  have hc : Counted (t₂.setState u .walkQueue) u 1 t₃ := addWalks_counted _ u 1
  have hfields : t₃.walkQueuePage = t₂.walkQueuePage ∧ t₃.faultRetryQueue = t₂.faultRetryQueue ∧
      t₃.waiting = t₂.waiting := by
    obtain ⟨uops, hu⟩ := addWalks_eq (t₂.setState u .walkQueue) u 1
    have ht : t₃ = { t₂.setState u .walkQueue with uops := uops } := hu
    rw [ht]
    exact ⟨rfl, rfl, rfl⟩
  refine ⟨fun issued hb => ?_, hm.names.trans hc.names, fun v hv => ?_⟩
  · have hjoin := (hb.marks hm).join hc
    have hperm : (u :: walking s).Perm (uopsOf t₃.walkQueuePage ++ t₃.faultRetryQueue) := by
      rw [hfields.1, hfields.2.1, hpages, hretry]
      exact (List.Perm.append_right s.faultRetryQueue (uopsOf_push_perm _ key u)).symm
    exact ⟨(hjoin.perm hperm).counted, (hjoin.perm hperm).inSet⟩
  · have hv : Function.update t₃.waiting u true v = true := hv
    rw [hfields.2.2, hwait] at hv
    by_cases hvu : v = u
    · exact .inr hvu
    · rw [Function.update_of_ne hvu] at hv
      exact .inl hv

/-- A step that keeps marks and queues keeps the books. -/
theorem TranslatedBooks.of_marks (hm : SameMarks s s') (hwalk : walking s' = walking s)
    (hwait : s'.waiting = s.waiting) : TranslatedBooks s u s' :=
  ⟨fun _ hb => hwalk ▸ hb.marks hm, hm.names, fun _ hv => .inl (hwait ▸ hv)⟩

/-- A translation keeps the books. -/
theorem translate_books (k : MmuKnobs) (s : Mmu) (u : ℕ) :
    Meets (s.translate k u) (fun r => TranslatedBooks s u r.2) (fun _ => True) := by
  unfold Mmu.translate
  split
  · exact .of_marks (.refl s) rfl rfl
  · cases hkey : k.keyOf (s.uops u) with
    | error e => exact True.intro
    | ok key =>
        have hm := SameMarks.setState s u .begin
        dsimp only [bind, Except.bind]
        split
        · split
          · exact True.intro
          · next frame tlb _ =>
            have hm₁ : SameMarks s { s.setState u .begin with tlb := tlb } :=
              ⟨hm.names, hm.walks, hm.parents⟩
            have hm' : SameMarks s ({ s.setState u .begin with tlb := tlb }.modifyUop u fun uop =>
                { uop with
                  paddr := k.physical frame uop.vaddr, state := .done, translated := true }) :=
              hm₁.trans (.modifyUop _ u (fun _ => rfl) fun _ => rfl)
            exact .of_marks hm' rfl rfl
        · have hj := joinWalk_books k (s.setState u .begin) u key
          exact ⟨fun issued hb => hj.books issued (hb.marks hm), hm.names.trans hj.names,
            hj.waiting⟩

/-- What the loops of a cycle keep. -/
structure CycleKept (issued : ℕ → Bool) (s₀ s : Mmu) : Prop where
  books : WalkBooks issued s (walking s)
  names : SameNames s₀ s
  waiting : ∀ v, s.waiting v = true → s₀.waiting v = true

/-- What two loops of a cycle keep is kept by both. -/
theorem CycleKept.trans {s₀ : Mmu} (h : CycleKept issued s₀ s) (h' : CycleKept issued s s') :
    CycleKept issued s₀ s' :=
  ⟨h'.books, h.names.trans h'.names, fun v hv => h.waiting v (h'.waiting v hv)⟩

/-- The loop over the retry queue; its uops wait. -/
theorem retryLoop_books (k : MmuKnobs) (answers : ℕ → ℤ) {s₀ : Mmu} (kept rest : List ℕ) (s : Mmu)
    (h : CycleKept issued s₀ s) (hrest : ∀ u ∈ rest, s₀.waiting u = true) :
    Meets (Mmu.retryLoop k answers kept rest s) (CycleKept issued s₀) (fun _ => True) := by
  induction rest generalizing kept s with
  | nil => exact h
  | cons u rest ih =>
      have hu := hrest u List.mem_cons_self
      have hrest' : ∀ v ∈ rest, s₀.waiting v = true := fun v hv =>
        hrest v (List.mem_cons_of_mem _ hv)
      have haccess : Meets (s.access k u (answers u)) (fun r => CycleKept issued s₀ r.2)
          (fun _ => True) := by
        refine (translate_books k s u).bind ?_
        rintro ⟨success, t⟩ ht
        have hbooks := ht.books issued h.books
        have hwait : ∀ v, t.waiting v = true → s₀.waiting v = true := by
          intro v hv
          rcases ht.waiting v hv with hv | rfl
          · exact h.waiting v hv
          · exact hu
        have hkept : CycleKept issued s₀ t := ⟨hbooks, h.names.trans ht.names, hwait⟩
        cases success with
        | false => exact hkept
        | true =>
            show CycleKept issued s₀ (if answers u ≠ 0 then
              { t with waiting := Function.update t.waiting u false } else t)
            split
            · refine ⟨⟨hbooks.counted, hbooks.inSet⟩, hkept.names, fun v hv => ?_⟩
              have hv : Function.update t.waiting u false v = true := hv
              by_cases hvu : v = u
              · exact hvu ▸ hu
              · rw [Function.update_of_ne hvu] at hv
                exact hwait v hv
            · exact hkept
      refine haccess.bind ?_
      rintro ⟨latency, t⟩ ht
      have ht : CycleKept issued s₀ t := ht
      show Meets (if latency ≠ 0 then
        Mmu.retryLoop k answers kept rest { t with retryQueue := kept ++ rest }
        else Mmu.retryLoop k answers (kept ++ [u]) rest t) _ _
      split
      · exact ih kept _ ⟨⟨ht.books.counted, ht.books.inSet⟩, ht.names, ht.waiting⟩ hrest'
      · exact ih _ t ht hrest'

/-- The faults that are tried again keep the fault parents in order. -/
def RetriesKeep (k : MmuKnobs) (s : Mmu) : Prop :=
  s.faultBuffer = [] → WalksKeep k s.faultRetryQueue { s with faultRetryQueue := [] }

/-- The retries of faults keep the books, when they take no parent away. -/
theorem retryFaults_books (hb : WalkBooks issued s (walking s))
    (hfamily : ∀ u ∈ walking s, OfIssued issued s u) (hkeep : RetriesKeep k s) :
    Meets (s.retryFaults k)
      (fun s' => CycleKept issued s s' ∧ s'.walkQueuePage = s.walkQueuePage) (fun _ => True) := by
  unfold Mmu.retryFaults
  split
  · next hempty =>
    have hstart : Balanced issued (uopsOf s.walkQueuePage) { s with faultRetryQueue := [] }
        s.faultRetryQueue { s with faultRetryQueue := [] } := by
      refine ⟨?_, fun u hu => hfamily u (List.mem_append_right _ hu), .refl _, rfl, rfl⟩
      have hperm : (walking s).Perm (s.faultRetryQueue ++ (uopsOf s.walkQueuePage ++ [])) := by
        rw [List.append_nil]
        exact List.perm_append_comm
      have := hb.perm hperm
      exact ⟨this.counted, this.inSet⟩
    refine (hstart.walks (hkeep hempty)).mono (fun t ht => ?_) fun _ h => h
    refine ⟨⟨?_, ht.names, fun v hv => ht.waiting ▸ hv⟩, ht.pages⟩
    have hw : walking t = [] ++ (uopsOf s.walkQueuePage ++ t.faultRetryQueue) := by
      unfold walking
      rw [ht.pages]
      rfl
    rw [hw]
    exact ht.books
  · exact ⟨⟨hb, .refl s, fun _ hv => hv⟩, rfl⟩

/-- The walks of one page keep the fault parents in order. -/
def PageKeeps (k : MmuKnobs) (s : Mmu) (key : PageKey) : Prop :=
  WalksKeep k ((s.walkQueuePage.lookup key).getD []) s

/-- So do the walks that are due. -/
def LoopKeeps (k : MmuKnobs) : List (ℕ × List PageKey) → Mmu → Prop
  | [], _ => True
  | (c, keys) :: rest, s => c ≤ s.cycle →
      EachStep (fun s key => (s.walkPage k key).toOption) (PageKeeps k) s keys ∧
        ∀ s', keys.foldlM (Mmu.walkPage k) s = .ok s' →
          LoopKeeps k rest { s' with walkQueueCycle := rest }

/-- The state between two pages. -/
structure BetweenPages (issued : ℕ → Bool) (s₀ s : Mmu) : Prop where
  kept : CycleKept issued s₀ s
  family : ∀ u ∈ uopsOf s.walkQueuePage, OfIssued issued s u

/-- The walks of one page keep the state between two pages. -/
theorem BetweenPages.walkPage {s₀ : Mmu} {key : PageKey} (h : BetweenPages issued s₀ s)
    (hkeep : PageKeeps k s key) :
    Meets (s.walkPage k key) (BetweenPages issued s₀) (fun _ => True) := by
  have hsplit := uopsOf_erase_perm s.walkQueuePage key
  have hstart : Balanced issued (uopsOf (s.walkQueuePage.erase key)) s
      ((s.walkQueuePage.lookup key).getD []) s := by
    refine ⟨h.kept.books.perm ?_, fun u hu => h.family u ?_, .refl s, rfl, rfl⟩
    · rw [← List.append_assoc]
      exact List.Perm.append_right _ hsplit
    · exact hsplit.mem_iff.mpr (List.mem_append_left _ hu)
  refine (hstart.walks hkeep).bind fun t ht => ?_
  have hpages : t.walkQueuePage.erase key = s.walkQueuePage.erase key := by rw [ht.pages]
  refine ⟨⟨?_, h.kept.names.trans ht.names, fun v hv => h.kept.waiting v (ht.waiting ▸ hv)⟩, ?_⟩
  · have hw : uopsOf (t.walkQueuePage.erase key) ++ t.faultRetryQueue =
        [] ++ (uopsOf (s.walkQueuePage.erase key) ++ t.faultRetryQueue) := by
      rw [hpages]
      rfl
    show WalkBooks issued _ (uopsOf (t.walkQueuePage.erase key) ++ t.faultRetryQueue)
    rw [hw]
    exact ⟨ht.books.counted, ht.books.inSet⟩
  · intro u hu
    have hu : u ∈ uopsOf (t.walkQueuePage.erase key) := hu
    rw [hpages] at hu
    exact ht.names.ofIssued (h.family u (hsplit.mem_iff.mpr (List.mem_append_right _ hu)))

/-- The loop over the pages that are due keeps the books. -/
theorem walkLoop_books (queue : List (ℕ × List PageKey)) {s₀ : Mmu} (s : Mmu)
    (h : BetweenPages issued s₀ s) (hkeep : LoopKeeps k queue s) :
    Meets (Mmu.walkLoop k queue s) (CycleKept issued s₀) (fun _ => True) := by
  induction queue generalizing s with
  | nil => exact h.kept
  | cons e rest ih =>
      obtain ⟨c, keys⟩ := e
      unfold Mmu.walkLoop
      split
      · next hdue =>
        obtain ⟨hturns, hrest⟩ := hkeep hdue
        have hfold := Meets.foldlM_eachStep (I := fun _ t => BetweenPages issued s₀ t)
          (E := fun _ => True) keys s h hturns fun _ _ _ ht hp => ht.walkPage hp
        cases hres : keys.foldlM (Mmu.walkPage k) s with
        | error e => exact True.intro
        | ok t =>
            have ht := hfold.result hres
            exact ih _ ⟨⟨⟨ht.kept.books.counted, ht.kept.books.inSet⟩, ht.kept.names,
              ht.kept.waiting⟩, ht.family⟩ (hrest t hres)
      · exact h.kept

/-- In a cycle no walk that finds its page leaves its parent in the set without a child that
waits. -/
def CycleKeeps (k : MmuKnobs) (answers : ℕ → ℤ) (s : Mmu) : Prop :=
  ∀ s₁, Mmu.retryLoop k answers [] s.retryQueue s = .ok s₁ →
    RetriesKeep k s₁ ∧ ∀ s₂, s₁.retryFaults k = .ok s₂ → LoopKeeps k s₂.walkQueueCycle s₂

/-- A cycle accounts for its walks, when it takes no parent away. -/
theorem WalkAccounted.runACycle (h : WalkAccounted issued s) (pllLock : Bool) (answers : ℕ → ℤ)
    (hkeep : pllLock = false → CycleKeeps k answers s) :
    Meets (s.runACycle k pllLock answers) (CycleKept issued s) (fun _ => True) := by
  have hrefl : CycleKept issued s s := ⟨h.books, .refl s, fun _ hv => hv⟩
  unfold Mmu.runACycle
  split
  · exact ⟨⟨h.books.counted, h.books.inSet⟩, .refl s, fun _ hv => hv⟩
  · next hlock =>
    have hkeep := hkeep (by simpa using hlock)
    have hretry : Meets (Mmu.retryLoop k answers [] s.retryQueue s) (CycleKept issued s)
        (fun _ => True) := retryLoop_books k answers [] s.retryQueue s hrefl
      fun u hu => h.queues.waiting_of_mem (by simp [placed, hu])
    cases h₁ : Mmu.retryLoop k answers [] s.retryQueue s with
    | error e => exact True.intro
    | ok s₁ =>
        have hk₁ := hretry.result h₁
        have hq₁ := ((retryLoop_meets k answers [] s.retryQueue s rfl h.queues).result h₁).queues
        obtain ⟨hretries, hloops⟩ := hkeep s₁ h₁
        have hfamily : ∀ u ∈ walking s₁, OfIssued issued s₁ u := fun u hu => by
          refine hk₁.names.ofIssued (h.family u (hk₁.waiting u (hq₁.waiting_of_mem ?_)))
          rcases List.mem_append.mp hu with hu | hu
          · exact List.mem_append_left _ hu
          · exact List.mem_append_right _ (by simp [placed, hu])
        have hfaults := retryFaults_books hk₁.books hfamily hretries
        show Meets (s₁.retryFaults k >>= _) _ _
        cases h₂ : s₁.retryFaults k with
        | error e => exact True.intro
        | ok s₂ =>
            obtain ⟨hk₂, hpages⟩ := hfaults.result h₂
            have hstart : BetweenPages issued s s₂ := by
              refine ⟨hk₁.trans hk₂, fun u hu => ?_⟩
              rw [hpages] at hu
              exact hk₂.names.ofIssued (hfamily u (List.mem_append_left _ hu))
            refine (walkLoop_books _ s₂ hstart (hloops s₂ h₂)).bind fun s₃ h₃ => ?_
            exact ⟨⟨h₃.books.counted, h₃.books.inSet⟩, h₃.names, h₃.waiting⟩

/-! ## Batches -/

/-- A change that no uop notices which waits for a walk. -/
structure Quiet (s s' : Mmu) : Prop where
  marks : SameMarks s s'
  walking : walking s' = walking s
  waiting : s'.waiting = s.waiting

/-- Two changes that no waiting uop notices are one. -/
theorem Quiet.trans (h : Quiet s s') (h' : Quiet s' s'') : Quiet s s'' :=
  ⟨h.marks.trans h'.marks, h'.walking.trans h.walking, h'.waiting.trans h.waiting⟩

/-- No waiting uop notices that uops are retried. -/
theorem retryUops_quiet (s : Mmu) (l : List ℕ) : Quiet s (s.retryUops l) := by
  have hfold : Quiet s (l.foldl (fun s u => s.setState u .retryQueue) s) := by
    induction l generalizing s with
    | nil => exact ⟨.refl s, rfl, rfl⟩
    | cons u l ih => exact Quiet.trans ⟨.setState s u _, rfl, rfl⟩ (ih (s.setState u .retryQueue))
  exact ⟨⟨hfold.marks.names, hfold.marks.walks, hfold.marks.parents⟩, hfold.walking, hfold.waiting⟩

/-- No waiting uop notices that the uops of a fault are released. -/
theorem releaseUops_quiet (s : Mmu) (key : PageKey) :
    Meets (s.releaseUops key) (Quiet s) (fun _ => True) := by
  unfold Mmu.releaseUops
  split
  · exact True.intro
  · next l _ =>
    have h₁ : Quiet s { s.retryUops l with
        faultUopsProcessing := s.faultUopsProcessing.erase key } := by
      have h := retryUops_quiet s l
      exact ⟨⟨h.marks.names, h.marks.walks, h.marks.parents⟩, h.walking, h.waiting⟩
    dsimp only
    split
    · exact h₁
    · next l' _ =>
      have h₂ := h₁.trans (retryUops_quiet _ l')
      exact ⟨⟨h₂.marks.names, h₂.marks.walks, h₂.marks.parents⟩, h₂.walking, h₂.waiting⟩

/-- No waiting uop notices that a transfer is prepared. -/
theorem prepareTransfer_quiet (k : MmuKnobs) (s : Mmu) :
    Meets (s.prepareTransfer k) (Quiet s) (fun _ => True) := by
  refine (prepareTransfer_meets k s).mono ?_ fun _ _ => True.intro
  rintro t ⟨p, time, rfl, -⟩
  exact ⟨⟨.refl s, fun _ => rfl, rfl⟩, rfl, rfl⟩

/-- No waiting uop notices that a fault is resolved. -/
theorem resolveFault_quiet (k : MmuKnobs) (s : Mmu) :
    Meets (s.resolveFault k) (Quiet s) (fun _ => True) := by
  unfold Mmu.resolveFault
  split
  · exact True.intro
  · cases s.toPaging.pickFrame k with
    | error e => exact True.intro
    | ok p =>
        cases hl : s.faultBufferProcessing with
        | nil => exact True.intro
        | cons key rest =>
            show Meets (p.mapPage k key >>= fun p =>
              Mmu.releaseUops { s with toPaging := p, faultBufferProcessing := rest } key) _ _
            cases p.mapPage k key with
            | error e => exact True.intro
            | ok p' =>
                refine (releaseUops_quiet _ key).mono (fun t ht => ?_) fun _ h => h
                exact ⟨⟨ht.marks.names, ht.marks.walks, ht.marks.parents⟩, ht.walking, ht.waiting⟩

/-- No waiting uop notices the processing of a batch. -/
theorem doBatchProcessing_quiet (k : MmuKnobs) (s : Mmu) :
    Meets (s.doBatchProcessing k) (fun r => Quiet s r.2) (fun _ => True) := by
  have hrefl : Quiet s s := ⟨.refl s, rfl, rfl⟩
  unfold Mmu.doBatchProcessing
  split
  · exact hrefl
  · split
    · refine (prepareTransfer_quiet k s).bind fun t ht => ?_
      exact ⟨⟨ht.marks.names, ht.marks.walks, ht.marks.parents⟩, ht.walking, ht.waiting⟩
    · split
      · exact hrefl
      · refine (resolveFault_quiet k s).bind fun t ht => ?_
        split
        · exact ⟨⟨ht.marks.names, ht.marks.walks, ht.marks.parents⟩, ht.walking, ht.waiting⟩
        · exact (prepareTransfer_quiet k t).bind fun t' ht' => ht.trans ht'

/-- No waiting uop notices the start of a batch. -/
theorem startBatch_quiet (k : MmuKnobs) (order : List PageKey) (s : Mmu) :
    Meets (s.startBatch k order) (Quiet s) (fun _ => True) := by
  have hrefl : Quiet s s := ⟨.refl s, rfl, rfl⟩
  unfold Mmu.startBatch Mmu.beginBatchProcessing
  split
  · exact hrefl
  · split
    · exact True.intro
    · exact ⟨⟨.refl s, fun _ => rfl, rfl⟩, rfl, rfl⟩

/-- No waiting uop notices the handling of page faults. -/
theorem handlePageFaults_quiet (k : MmuKnobs) (order : List PageKey → List PageKey) (s : Mmu) :
    Meets (s.handlePageFaults k order) (Quiet s) (fun _ => True) := by
  unfold Mmu.handlePageFaults
  split
  · refine (doBatchProcessing_quiet k s).bind ?_
    rintro ⟨ended, t⟩ ht
    cases ended with
    | false => exact ht
    | true => exact (startBatch_quiet k _ t).mono (fun t' ht' => Quiet.trans ht ht') fun _ h => h
  · exact startBatch_quiet k _ s

end MacSim.Analysis
