import MacSim.Analysis.ParentWalks

/-!
# Page walks in every run

The core offers the MMU the children of its parents and recycles the objects.  In every run
without one of the two disturbances the counters of the parents and the sets of fault parents are
right; each disturbance alone breaks them.
-/

set_option autoImplicit false

namespace MacSim.Analysis

open MacSim.Model MacSim.Computation

variable {k : MmuKnobs} {u : ℕ}

/-! ## The core -/

/-- What every run keeps whose steps leave the books alone. -/
structure IssuingBooks (k : MmuKnobs) (s : IssuingCore) : Prop where
  mmu : MmuBooks k s.mmu
  books : WalkBooks s.issued s.mmu (walking s.mmu)
  family : ∀ u, s.mmu.waiting u = true → OfIssued s.issued s.mmu u

variable {i i' : IssuingCore}

/-- Books that are right account for the walks. -/
theorem IssuingBooks.accounted (h : IssuingBooks k i) : WalkAccounted i.issued i.mmu :=
  ⟨h.books, h.family, h.mmu.queues⟩

/-- A uop that does not wait is translated, of a parent that was executed or of none. -/
theorem IssuingBooks.translate (h : IssuingBooks k i) (hwait : i.mmu.waiting u = false)
    (hu : OfIssued i.issued i.mmu u) :
    Meets (i.mmu.translate k u) (fun r => IssuingBooks k ⟨r.2, i.issued⟩ ∧
      SameNames i.mmu r.2 ∧ ∀ v, r.2.waiting v = true → i.mmu.waiting v = true ∨ v = u)
      (fun _ => True) := by
  cases hres : i.mmu.translate k u with
  | error e => exact True.intro
  | ok r =>
      have ht := (translate_books k i.mmu u).result hres
      have hstep : i.mmu.step k (.translate u) = .ok r.2 := by
        show (i.mmu.translate k u).map (·.2) = .ok r.2
        rw [hres]
        rfl
      refine ⟨⟨h.mmu.step (a := .translate u) hwait hstep, ht.books _ h.books, fun v hv => ?_⟩,
        ht.names, ht.waiting⟩
      rcases ht.waiting v hv with hv | rfl
      · exact ht.names.ofIssued (h.family v hv)
      · exact ht.names.ofIssued hu

/-- The counter of a parent is set to zero when none of its children waits for a walk. -/
theorem IssuingBooks.resetWalks {p : ℕ} (h : IssuingBooks k i)
    (hnone : childrenIn i.mmu p (walking i.mmu) = 0) :
    IssuingBooks k ⟨i.mmu.modifyUop p fun uop => { uop with numPageTableWalks := 0 },
      Function.update i.issued p true⟩ := by
  set t := i.mmu.modifyUop p fun uop => { uop with numPageTableWalks := 0 } with ht
  have hat : ∀ v, t.uops v = if v = p then { i.mmu.uops p with numPageTableWalks := 0 }
      else i.mmu.uops v := fun v => Function.update_apply _ _ _ _
  have hnames : SameNames i.mmu t := by
    intro v
    rw [hat]
    split
    · next hv =>
      rw [hv]
      rfl
    · rfl
  have hmono : ∀ v, OfIssued i.issued i.mmu v → OfIssued (Function.update i.issued p true) t v := by
    intro v hv q hq
    obtain ⟨hissued, hchild⟩ := hnames.ofIssued hv q hq
    refine ⟨?_, hchild⟩
    by_cases hqp : q = p
    · rw [hqp, Function.update_self]
    · rw [Function.update_of_ne hqp]
      exact hissued
  refine ⟨h.mmu.step (a := .resetWalks p) True.intro rfl,
    ⟨fun q hq => ?_, fun core thread n hn => ?_⟩, fun v hv => hmono v (h.family v hv)⟩
  · show (t.uops q).numPageTableWalks = childrenIn t q (walking i.mmu)
    rw [hnames.childrenIn, hat]
    by_cases hqp : q = p
    · rw [if_pos hqp, hqp, hnone]
      rfl
    · have hq : Function.update i.issued p true q = true := hq
      rw [Function.update_of_ne hqp] at hq
      rw [if_neg hqp]
      exact h.books.counted q hq
  · obtain ⟨q, hcore, hthread, hnum, hpos⟩ := h.books.inSet core thread n hn
    refine ⟨q, (hnames.coreId q).trans hcore, (hnames.threadId q).trans hthread,
      (hnames.uopNum q).trans hnum, ?_⟩
    show 0 < childrenIn t q (walking i.mmu)
    rw [hnames.childrenIn]
    exact hpos

/-- An attempt to execute a parent. -/
theorem IssuingBooks.exec {p : ℕ} {pending : List ℕ} (h : IssuingBooks k i)
    (hoffered : i.Offered (.exec p pending))
    (hnone : childrenIn i.mmu p (walking i.mmu) = 0) :
    Meets (i.exec k p pending) (IssuingBooks k) (fun _ => True) := by
  obtain ⟨hnodup, hchildren⟩ := hoffered
  set issued := Function.update i.issued p true with hissued
  have hstart := h.resetWalks hnone
  set t := i.mmu.modifyUop p fun uop => { uop with numPageTableWalks := 0 } with ht
  have hnames : SameNames i.mmu t := by
    intro v
    have hat : t.uops v = if v = p then { i.mmu.uops p with numPageTableWalks := 0 }
      else i.mmu.uops v := Function.update_apply _ _ _ _
    rw [hat]
    split
    · next hv =>
      rw [hv]
      rfl
    · rfl
  have hloop : Meets (pending.foldlM (fun t c => (t.translate k c).map (·.2)) t)
      (fun t' => (([] : List ℕ).Nodup ∧ ∀ c ∈ ([] : List ℕ), t'.waiting c = false) ∧
        SameNames i.mmu t' ∧ IssuingBooks k ⟨t', issued⟩) (fun _ => True) := by
    have hinv := Meets.foldlM (E := fun _ => True)
      (I := fun rest t' => (rest ⊆ pending ∧ rest.Nodup ∧ ∀ c ∈ rest, t'.waiting c = false) ∧
        SameNames i.mmu t' ∧ IssuingBooks k ⟨t', issued⟩)
      (f := fun (t : Mmu) c => (t.translate k c).map (·.2)) pending t
      ⟨⟨List.Subset.refl _, hnodup, fun c hc => (hchildren c hc).1⟩, hnames, hstart⟩ ?_
    · exact hinv.mono (fun t' ⟨⟨_, hn, hw⟩, hrest⟩ => ⟨⟨hn, hw⟩, hrest⟩) fun _ h => h
    · rintro c rest t' ⟨⟨hsub, hnd, hwaiting⟩, hnames', hbooks⟩
      obtain ⟨hout, hnd⟩ := List.nodup_cons.mp hnd
      have hof : OfIssued issued t' c := by
        intro q hq
        obtain ⟨-, hparent, hcore, hthread⟩ := hchildren c (hsub List.mem_cons_self)
        rw [hnames'.parent, hparent] at hq
        obtain rfl := Option.some.inj hq
        refine ⟨Function.update_self _ _ _, (hnames'.parent c).trans hparent, ?_, ?_⟩
        · rw [hnames'.coreId, hnames'.coreId, hcore]
        · rw [hnames'.threadId, hnames'.threadId, hthread]
      refine (hbooks.translate (hwaiting c List.mem_cons_self) hof).map ?_
      rintro ⟨b, t''⟩ ⟨hbooks'', hnames'', hwait''⟩
      refine ⟨⟨fun a ha => hsub (List.mem_cons_of_mem _ ha), hnd, fun a ha => ?_⟩,
        hnames'.trans hnames'', hbooks''⟩
      by_contra hne
      rcases hwait'' a (by simpa using hne) with hw | rfl
      · have hold := hwaiting a (List.mem_cons_of_mem _ ha)
        rw [hold] at hw
        cases hw
      · exact hout ha
  exact hloop.bind fun t' ht' => ht'.2.2

/-- An object is used for another uop. -/
theorem IssuingBooks.fetch (h : IssuingBooks k i) (hwait : i.mmu.waiting u = false)
    (hchildren : ∀ v, i.mmu.waiting v = true → (i.mmu.uops v).parent ≠ some u) (uop : MmuUop) :
    IssuingBooks k ⟨i.mmu.modifyUop u fun _ => { uop with translated := false },
      Function.update i.issued u false⟩ := by
  set t := i.mmu.modifyUop u fun _ => { uop with translated := false } with ht
  have hat : ∀ v, v ≠ u → t.uops v = i.mmu.uops v := fun v hv => Function.update_of_ne hv _ _
  have hwalking : ∀ v ∈ walking i.mmu, i.mmu.waiting v = true := fun v hv => by
    refine h.mmu.queues.waiting_of_mem ?_
    rcases List.mem_append.mp hv with hv | hv
    · exact List.mem_append_left _ hv
    · exact List.mem_append_right _ (by simp [placed, hv])
  have hne : ∀ v, i.mmu.waiting v = true → v ≠ u := by
    rintro v hv rfl
    rw [hwait] at hv
    cases hv
  have hcount : ∀ q, childrenIn t q (walking i.mmu) = childrenIn i.mmu q (walking i.mmu) :=
    fun q => List.countP_congr fun v hv => by rw [hat v (hne v (hwalking v hv))]
  refine ⟨h.mmu.step (a := .renew u uop) hwait rfl, ⟨fun q hq => ?_, fun core thread n hn => ?_⟩,
    fun v hv p hp => ?_⟩
  · have hq : Function.update i.issued u false q = true := hq
    have hqu : q ≠ u := by
      rintro rfl
      rw [Function.update_self] at hq
      cases hq
    rw [Function.update_of_ne hqu] at hq
    show (t.uops q).numPageTableWalks = childrenIn t q (walking i.mmu)
    rw [hat q hqu, hcount]
    exact h.books.counted q hq
  · obtain ⟨q, hcore, hthread, hnum, hpos⟩ := h.books.inSet core thread n hn
    obtain ⟨v, hv, hparent⟩ := List.countP_pos_iff.mp hpos
    have hqu : q ≠ u := by
      rintro rfl
      exact hchildren v (hwalking v hv) (of_decide_eq_true hparent)
    refine ⟨q, ?_, ?_, ?_, ?_⟩
    · rw [hat q hqu, hcore]
    · rw [hat q hqu, hthread]
    · rw [hat q hqu, hnum]
    · show 0 < childrenIn t q (walking i.mmu)
      rw [hcount]
      exact hpos
  · have hv : i.mmu.waiting v = true := hv
    have hvu := hne v hv
    have hp : (t.uops v).parent = some p := hp
    rw [hat v hvu] at hp
    have hpu : p ≠ u := fun he => hchildren v hv (he ▸ hp)
    obtain ⟨hissued, hparent, hcore, hthread⟩ := h.family v hv p hp
    refine ⟨?_, ?_, ?_, ?_⟩
    · show Function.update i.issued u false p = true
      rw [Function.update_of_ne hpu]
      exact hissued
    · rw [hat v hvu, hparent]
    · rw [hat v hvu, hat p hpu, hcore]
    · rw [hat v hvu, hat p hpu, hthread]

/-! ## Runs -/

/-- The step leaves the books of page walks alone: a parent is executed only when none of its
children waits for a walk, and no walk that finds its page leaves its parent in the set of fault
parents without a child that waits. -/
def Undisturbed (k : MmuKnobs) (i : IssuingCore) : IssuingAction → Prop
  | .exec p _ => childrenIn i.mmu p (walking i.mmu) = 0
  | .runACycle pllLock answers => pllLock = false → CycleKeeps k answers i.mmu
  | _ => True

/-- An action of the MMU of which the books know. -/
theorem IssuingBooks.act {a : MmuAction} (h : IssuingBooks k i) (ha : i.mmu.Allowed a)
    (hbooks : Meets (i.mmu.step k a) (CycleKept i.issued i.mmu) (fun _ => True)) :
    Meets (i.act k a) (IssuingBooks k) (fun _ => True) := by
  unfold IssuingCore.act
  cases hres : i.mmu.step k a with
  | error e => exact True.intro
  | ok t =>
      have hk := hbooks.result hres
      exact ⟨h.mmu.step ha hres, hk.books,
        fun v hv => hk.names.ofIssued (h.family v (hk.waiting v hv))⟩

/-- Each offered step that disturbs nothing keeps the books right. -/
theorem IssuingBooks.step {a : IssuingAction} (h : IssuingBooks k i) (ha : i.Offered a)
    (hp : Undisturbed k i a) : Meets (i.step k a) (IssuingBooks k) (fun _ => True) := by
  cases a with
  | exec p pending => exact h.exec ha hp
  | access u =>
      have hof : OfIssued i.issued i.mmu u := fun q hq => by
        rw [ha.2] at hq
        cases hq
      show Meets (IssuingCore.act k i (.translate u)) _ _
      unfold IssuingCore.act
      exact Meets.bind (P := fun t => IssuingBooks k ⟨t, i.issued⟩)
        ((h.translate ha.1 hof).map fun r hr => hr.1) fun t ht => ht
  | fetch u uop => exact h.fetch ha.1 ha.2 uop
  | runACycle pllLock answers =>
      exact h.act True.intro (h.accounted.runACycle pllLock answers hp)
  | handlePageFaults order =>
      refine h.act ha ((handlePageFaults_quiet k order i.mmu).mono (fun t ht => ?_) fun _ h => h)
      exact ⟨ht.walking ▸ h.books.marks ht.marks, ht.marks.names, fun v hv => ht.waiting ▸ hv⟩

/-- Every undisturbed run has its books right. -/
theorem IssuingBooks.of_run (h : i.RunOf k (Undisturbed k)) : IssuingBooks k i := by
  induction h with
  | start cycle started uops =>
      refine ⟨.initial k cycle started uops, ⟨fun _ hp => ?_, fun _ _ _ hn => ?_⟩, fun _ hw => ?_⟩
      · cases hp
      · exact absurd hn List.not_mem_nil
      · cases hw
  | step a _ ha hp hs ih => exact (ih.step ha hp).result hs

/-- What the counters of page walks and the sets of fault parents say. -/
structure PageWalksCounted (i : IssuingCore) : Prop where
  /-- the counter of an executed parent is the number of its children in the walk queue or in
  the queue of faults that are tried again -/
  counted : ∀ p, i.issued p = true →
    (i.mmu.uops p).numPageTableWalks = childrenIn i.mmu p (walking i.mmu)
  natural : ∀ p, i.issued p = true → 0 ≤ (i.mmu.uops p).numPageTableWalks
  /-- a number in the set of a core and thread is the number of a parent with such a child -/
  inSet : ∀ core thread n, n ∈ i.mmu.faultParents core thread → ∃ p,
    (i.mmu.uops p).coreId = core ∧ (i.mmu.uops p).threadId = thread ∧
      (i.mmu.uops p).uopNum = n ∧ 0 < childrenIn i.mmu p (walking i.mmu)

/-- In every run whose steps leave the books alone, the counters and the sets are right. -/
theorem page_walks_counted (h : i.RunOf k (Undisturbed k)) : PageWalksCounted i := by
  have hbooks := (IssuingBooks.of_run h).books
  refine ⟨hbooks.counted, fun p hp => ?_, hbooks.inSet⟩
  rw [hbooks.counted p hp]
  exact Int.natCast_nonneg _

/-- Uop 1 is a parent with the children 2 and 3; uop 0 is a single one.  Child 2 is in page 1,
the others are in page 0. -/
def familyUop (u : ℕ) : MmuUop :=
  { vaddr := if u = 2 then 4 else 0, paddr := 0, applId := 0, coreId := 0, threadId := 0
    uopNum := u, parent := if u = 2 ∨ u = 3 then some 1 else none, numPageTableWalks := 0
    translated := false, state := .idle }

/-- Both children of a parent miss the TLB. -/
theorem page_walks_counted_two : ∃ i : IssuingCore, i.RunOf twoFrames (Undisturbed twoFrames) ∧
    (i.mmu.uops 1).numPageTableWalks = 2 ∧ PageWalksCounted i := by
  obtain ⟨i, hi, hobs⟩ := exists_ok_of_observed
    (x := (IssuingCore.initial twoFrames 0 false familyUop).step twoFrames (.exec 1 [2, 3]))
    (g := fun i => (i.mmu.uops 1).numPageTableWalks) (b := 2) (by decide +kernel)
  have hrun : i.RunOf twoFrames (Undisturbed twoFrames) := by
    refine .step (.exec 1 [2, 3]) (.start 0 false familyUop) ⟨by decide, ?_⟩ rfl hi
    intro c hc
    have hc : c = 2 ∨ c = 3 := by simpa using hc
    rcases hc with rfl | rfl
    · exact ⟨rfl, rfl, rfl, rfl⟩
    · exact ⟨rfl, rfl, rfl, rfl⟩
  exact ⟨i, hrun, by simpa using hobs, page_walks_counted hrun⟩

instance (s : Mmu) (p c : ℕ) : Decidable (IssuingCore.ChildOf s p c) :=
  inferInstanceAs (Decidable (_ ∧ _ ∧ _))

/-- An attempt or an access is made only if the core offers it. -/
def tryIssue (k : MmuKnobs) (i : IssuingCore) : IssuingAction → Except MmuFault IssuingCore
  | .exec p pending =>
      if pending.Nodup ∧
          ∀ c ∈ pending, i.mmu.waiting c = false ∧ IssuingCore.ChildOf i.mmu p c then
        i.step k (.exec p pending)
      else .error .badPid
  | .access u =>
      if i.mmu.waiting u = false ∧ (i.mmu.uops u).parent = none then i.step k (.access u)
      else .error .badPid
  | .fetch _ _ => .error .badPid
  | .runACycle pllLock answers => i.step k (.runACycle pllLock answers)
  | .handlePageFaults _ => i.step k (.handlePageFaults id)

/-- A step that is tried lengthens a run. -/
theorem tryIssue_run {a : IssuingAction} (h : i.RunOf k fun _ _ => True)
    (hs : tryIssue k i a = .ok i') : i'.RunOf k fun _ _ => True := by
  cases a with
  | exec p pending =>
      simp only [tryIssue] at hs
      split at hs
      · next hoffered => exact .step (.exec p pending) h hoffered True.intro hs
      · cases hs
  | access u =>
      simp only [tryIssue] at hs
      split at hs
      · next hoffered => exact .step (.access u) h hoffered True.intro hs
      · cases hs
  | fetch u uop => cases hs
  | runACycle pllLock answers =>
      exact .step (.runACycle pllLock answers) h True.intro True.intro hs
  | handlePageFaults order => exact .step (.handlePageFaults id) h (fun l => .refl l) True.intro hs

/-- The run of a list of actions. -/
theorem tryIssue_runs (acts : List IssuingAction) (h : i.RunOf k fun _ _ => True)
    (hs : acts.foldlM (tryIssue k) i = .ok i') : i'.RunOf k fun _ _ => True := by
  have hloop : Meets (acts.foldlM (tryIssue k) i) (fun t => t.RunOf k fun _ _ => True)
      (fun _ => True) := by
    refine Meets.foldlM (I := fun _ t => t.RunOf k fun _ _ => True) acts i h ?_
    intro a rest t ht
    cases hres : tryIssue k t a with
    | error e => exact True.intro
    | ok t' => exact tryIssue_run ht hres
  exact hloop.result hs

/-- Uop 0 brings page 0 in; the parent is executed twice. -/
def secondAttempt : List IssuingAction :=
  [.access 0, .runACycle false fun _ => 0, .handlePageFaults id, .handlePageFaults id,
    .handlePageFaults id, .handlePageFaults id, .runACycle false fun _ => 0,
    .runACycle false fun _ => 1, .exec 1 [2, 3], .exec 1 [3]]

/-- Page 0 is in the page table and not in the TLB when the parent is executed. -/
def faultAndHit : List IssuingAction :=
  [.access 0, .runACycle false fun _ => 0, .handlePageFaults id, .handlePageFaults id,
    .handlePageFaults id, .exec 1 [2, 3], .runACycle false fun _ => 0]

/-- Child 2 misses the TLB, child 3 hits it and is refused by the cache; the next attempt sets
the counter to zero while child 2 waits for its walk.  In another run child 2 has a fault and the
walk for child 3 finds its page; the parent stays in the set and has no child that waits. -/
theorem page_walks_miscounted :
    (∃ i : IssuingCore, i.RunOf twoFrames (fun _ _ => True) ∧ ¬ PageWalksCounted i ∧
      i.issued 1 = true ∧ (i.mmu.uops 1).numPageTableWalks = 0 ∧
      childrenIn i.mmu 1 (walking i.mmu) = 1) ∧
    ∃ i : IssuingCore, i.RunOf twoFrames (fun _ _ => True) ∧ ¬ PageWalksCounted i ∧
      1 ∈ i.mmu.faultParents 0 0 ∧ walking i.mmu = [] := by
  constructor
  · obtain ⟨i, hi, hobs⟩ := exists_ok_of_observed
      (x := secondAttempt.foldlM (tryIssue twoFrames)
        (IssuingCore.initial twoFrames 0 false familyUop))
      (g := fun i => (i.issued 1, (i.mmu.uops 1).numPageTableWalks,
        childrenIn i.mmu 1 (walking i.mmu)))
      (b := (true, 0, 1)) (by decide +kernel)
    obtain ⟨hissued, hwalks, hcount⟩ : i.issued 1 = true ∧
        (i.mmu.uops 1).numPageTableWalks = 0 ∧ childrenIn i.mmu 1 (walking i.mmu) = 1 := by
      simpa using hobs
    refine ⟨i, tryIssue_runs _ (.start 0 false familyUop) hi, fun h => ?_, hissued, hwalks, hcount⟩
    have := h.counted 1 hissued
    omega
  · obtain ⟨i, hi, hobs⟩ := exists_ok_of_observed
      (x := faultAndHit.foldlM (tryIssue twoFrames)
        (IssuingCore.initial twoFrames 0 false familyUop))
      (g := fun i => (i.mmu.faultParents 0 0, walking i.mmu))
      (b := ([1], [])) (by decide +kernel)
    obtain ⟨hset, hnone⟩ : i.mmu.faultParents 0 0 = [1] ∧ walking i.mmu = [] := by
      simpa using hobs
    refine ⟨i, tryIssue_runs _ (.start 0 false familyUop) hi, fun h => ?_, ?_, hnone⟩
    · obtain ⟨p, -, -, -, hpos⟩ := h.inSet 0 0 1 (by rw [hset]; exact List.mem_cons_self)
      rw [hnone] at hpos
      exact absurd hpos (lt_irrefl 0)
    · rw [hset]
      exact List.mem_cons_self

end MacSim.Analysis
