import MacSim.Analysis.MmuBatch
import MacSim.Computation.Traces
import Mathlib.Data.Set.Card

/-!
# Frames, uops and the TLB in every run

The three results on all runs of an MMU.  Frames are given to one page at a time and the search for a
free one succeeds; a uop whose address was not translated waits in exactly one place; and the TLB
agrees with the page table.
-/

set_option autoImplicit false

namespace MacSim.Analysis

open MacSim.Model MacSim.Computation Relation

variable {k : MmuKnobs} {s s' : Mmu}

/-- The errors of an action. -/
theorem MmuBooks.step_meets {a : MmuAction} (h : MmuBooks k s) (ha : s.Allowed a) :
    Meets (s.step k a) (fun _ => True) (fun e => LookError k s.toPaging e ∨ BatchError k s e) := by
  cases a with
  | translate u =>
      exact ((translate_meets k s u).mono (fun _ h => h) fun _ he => .inl he).map
        fun _ _ => True.intro
  | renew u uop => exact True.intro
  | resetWalks u => exact True.intro
  | runACycle pllLock answers =>
      exact (runACycle_meets k pllLock answers s h.queues).mono (fun _ _ => True.intro)
        fun _ he => .inl he
  | handlePageFaults order =>
      exact (handlePageFaults_meets h.frames h.faults h.queues ha).mono (fun _ _ => True.intro)
        fun _ he => .inr he

/-- An assertion that neither a lookup nor a batch can fail does not fail. -/
theorem MmuBooks.step_ne_error {a : MmuAction} {e : MmuFault} (h : MmuBooks k s)
    (ha : s.Allowed a) (hl : ¬ LookError k s.toPaging e) (hb : ¬ BatchError k s e) :
    s.step k a ≠ .error e :=
  (h.step_meets ha).ne_error fun he => he.elim hl hb

/-! ## A small MMU -/

/-- An MMU with frames for two pages of four bytes. -/
def twoFrames : MmuKnobs :=
  { pageSize := 4, memorySize := 8, noPageSwap := false, foolPageTable := true, tlbNumEntry := 2
    walkLatency := 0, faultLatency := 0, evictionLatency := 0, batchProcessingOverhead := 0
    faultBufferSize := 2 }

/-- Three pages are used in turn. -/
def turnUop (u : ℕ) : MmuUop :=
  { vaddr := BitVec.ofNat 64 (4 * (u % 3)), paddr := 0, applId := 0, coreId := 0, threadId := 0
    uopNum := u, parent := none, numPageTableWalks := 0, translated := false, state := .idle }

/-- A cycle in which no access succeeds, and a call that reads the fault buffer from its front. -/
def quietCycle : MmuAction := .runACycle false fun _ => 0

def frontFirst : MmuAction := .handlePageFaults id

/-- A uop is handed in only if it does not wait. -/
def tryStep (k : MmuKnobs) (s : Mmu) : MmuAction → Except MmuFault Mmu
  | .translate u => if s.waiting u then .error .badPid else s.step k (.translate u)
  | a => s.step k a

/-- The actions of small runs. -/
def Plain (a : MmuAction) : Prop := a = quietCycle ∨ a = frontFirst ∨ ∃ u, a = .translate u

/-- A step that is tried was allowed and is a step. -/
theorem tryStep_allowed {a : MmuAction} (ha : Plain a) (hs : tryStep k s a = .ok s') :
    s.Allowed a ∧ s.step k a = .ok s' := by
  obtain rfl | rfl | ⟨u, rfl⟩ := ha
  · exact ⟨True.intro, hs⟩
  · exact ⟨fun l => .refl l, hs⟩
  · rw [tryStep] at hs
    split at hs
    · exact nomatch hs
    · exact ⟨Bool.eq_false_iff.mpr ‹_›, hs⟩

/-- What each action of a run keeps is kept by the run. -/
theorem run_keeps {P : Mmu → Prop} {f : Mmu → MmuAction → Except MmuFault Mmu}
    {l : List MmuAction} (hstep : ∀ a s s', Plain a → P s → f s a = .ok s' → P s') (h : P s)
    (hl : ∀ a ∈ l, Plain a) (hr : l.foldlM f s = .ok s') : P s' := by
  have hloop : Meets (l.foldlM f s) (fun t => (∀ a ∈ ([] : List MmuAction), Plain a) ∧ P t)
      (fun _ => True) := by
    refine Meets.foldlM (I := fun rest t => (∀ a ∈ rest, Plain a) ∧ P t) l s ⟨hl, h⟩ ?_
    rintro a rest t ⟨hrest, ht⟩
    cases hf : f t a with
    | error e => exact True.intro
    | ok t' =>
        exact ⟨fun b hb => hrest b (List.mem_cons_of_mem a hb),
          hstep a t t' (hrest a List.mem_cons_self) ht hf⟩
  exact (hloop.result hr).2

/-- A run that hands in uops and leaves the rest to the MMU. -/
theorem reachable_run {l : List MmuAction} (h : s.Reachable k) (hl : ∀ a ∈ l, Plain a)
    (hr : l.foldlM (tryStep k) s = .ok s') : s'.Reachable k := by
  refine run_keeps (fun a t t' ha ht hs => ?_) h hl hr
  obtain ⟨hallowed, hstep⟩ := tryStep_allowed ha hs
  exact ht.step a hallowed hstep

/-- Two uops are handed in, their pages are brought in, and they wait for the caches. -/
theorem twoFrames_full : ∃ s : Mmu, s.Reachable twoFrames ∧ s.freeFramesRemaining = 0 ∧
    s.waiting 0 = true ∧ s.tlb.find ⟨0, -1⟩ = some 0 := by
  obtain ⟨s, hs, hobs⟩ := exists_ok_of_observed
    (x := [.translate 0, .translate 1, quietCycle, frontFirst, frontFirst, frontFirst, frontFirst,
      quietCycle, quietCycle].foldlM (tryStep twoFrames) (initializeMmu twoFrames 0 false turnUop))
    (g := fun s => (s.freeFramesRemaining, s.waiting 0, s.tlb.find ⟨0, -1⟩))
    (b := (0, true, some 0)) (by decide +kernel)
  obtain ⟨hrem, hwait, htlb⟩ : s.freeFramesRemaining = 0 ∧ s.waiting 0 = true ∧
      s.tlb.find ⟨0, -1⟩ = some 0 := by simpa using hobs
  exact ⟨s, reachable_run (.start 0 false turnUop) (by simp [Plain]) hs, hrem, hwait, htlb⟩

/-! ## Frames -/

/-- The assertions on free frames. -/
def frameAsserts : List MmuFault := [.noFrame, .frameTaken, .endlessSearch]

/-- Looking a page up fails no assertion on frames. -/
theorem LookError.not_frameAssert {p : Paging} {e : MmuFault} (he : e ∈ frameAsserts) :
    ¬ LookError k p e := by
  rintro (_ | _ | _) <;> simp [frameAsserts] at he

/-- A batch fails no assertion on frames. -/
theorem BatchError.not_frameAssert {e : MmuFault} (he : e ∈ frameAsserts) : ¬ BatchError k s e := by
  have hev : ∀ p, ¬ EvictError p e := by
    rintro p (_ | _ | _) <;> simp [frameAsserts] at he
  rintro (hfirst | _ | ⟨_, _, _, hnext⟩)
  · exact hev _ hfirst
  · simp [frameAsserts] at he
  · exact hev _ hnext

/-- In every run, no two pages have the same frame.  In swap mode, the bitmap marks the frames that no
page has and the counter is their number.  The assertions on free frames do not fail, and the search
for a frame ends. -/
theorem frames_allocated_once (h : s.Reachable k) :
    (∀ key key' f, s.pageTable key = some f → s.pageTable key' = some f → key = key') ∧
    (k.noPageSwap = false →
      (∀ key f, s.pageTable key = some f → f < k.numFrames) ∧
      (∀ f < k.numFrames, (s.freeFrames f = true ↔ ∀ key, s.pageTable key ≠ some f)) ∧
      s.freeFramesRemaining =
        ({f | f < k.numFrames ∧ ∀ key, s.pageTable key ≠ some f} : Set ℕ).ncard) ∧
    ∀ a, s.Allowed a → ∀ e ∈ frameAsserts, s.step k a ≠ .error e := by
  have hbooks := MmuBooks.of_reachable h
  refine ⟨hbooks.frames.injective, fun hs => ?_, fun a ha e he => ?_⟩
  · have hswap := hbooks.frames.swap hs
    refine ⟨hswap.bound, hswap.free, ?_⟩
    have hset : ({f | f < k.numFrames ∧ ∀ key, s.pageTable key ≠ some f} : Set ℕ) =
        ((Finset.range k.numFrames).filter (s.freeFrames · = true) : Finset ℕ) := by
      ext f
      simp only [Set.mem_ofPred_eq, Finset.coe_filter, Finset.mem_range]
      exact and_congr_right fun hf => (hswap.free f hf).symm
    rw [hset, Set.ncard_coe_finset]
    exact hswap.remaining
  · exact hbooks.step_ne_error ha (LookError.not_frameAssert he) (BatchError.not_frameAssert he)

/-- Two frames that are both taken can be reached, and no step fails on them. -/
theorem frames_allocated_once_twoFrames : ∃ s : Mmu, s.Reachable twoFrames ∧ s.freeFramesRemaining = 0 ∧
    (∀ f < 2, s.freeFrames f = false) ∧
    ∀ a, s.Allowed a → ∀ e ∈ frameAsserts, s.step twoFrames a ≠ .error e := by
  obtain ⟨s, h, hrem, -, -⟩ := twoFrames_full
  obtain ⟨-, hswap, hassert⟩ := frames_allocated_once h
  obtain ⟨-, hfree, hcount⟩ := hswap rfl
  refine ⟨s, h, hrem, fun f hf => ?_, hassert⟩
  have hf : f < twoFrames.numFrames := hf
  have hempty : ({f | f < twoFrames.numFrames ∧ ∀ key, s.pageTable key ≠ some f} : Set ℕ) = ∅ := by
    refine (Set.ncard_eq_zero ((Set.finite_lt_nat _).subset fun f hf => hf.1)).mp ?_
    rw [hrem] at hcount
    exact_mod_cast hcount.symm
  rw [Bool.eq_false_iff]
  intro htrue
  exact Set.eq_empty_iff_forall_notMem.mp hempty f ⟨hf, (hfree f hf).mp htrue⟩

/-! ## Uops -/

/-- In every run, a uop that waits for its translation is in exactly one list, once, and other uops are
in none.  The two walk queues have the same pages, once each; so have the fault buffers and the tables
of fault uops.  A fault that is processed has its uops. -/
theorem uops_wait_once (h : s.Reachable k) :
    (∀ u, (uopsOf s.walkQueuePage ++ s.retryQueue ++ s.faultRetryQueue ++ uopsOf s.faultUops ++
      uopsOf s.faultUopsProcessing).count u = if s.waiting u then 1 else 0) ∧
    (∀ key, (s.walkQueueCycle.flatMap (·.2)).count key = if key ∈ s.walkQueuePage then 1 else 0) ∧
    (∀ key, s.faultBuffer.count key = if key ∈ s.faultUops then 1 else 0) ∧
    (∀ key, s.faultBufferProcessing.count key = if key ∈ s.faultUopsProcessing then 1 else 0) ∧
    ∀ a, s.Allowed a → s.step k a ≠ .error .noFaultUops := by
  have hbooks := MmuBooks.of_reachable h
  -- A list with the pages of a hash table has each of them once.
  have hcount : ∀ (l : List PageKey) (m : UopMap), l.Perm m.keys →
      ∀ key, l.count key = if key ∈ m then 1 else 0 := by
    intro l m hperm key
    rw [hperm.count_eq, List.Nodup.count m.keys_nodup]
    exact if_congr AList.mem_keys.symm rfl rfl
  refine ⟨fun u => ?_, hcount _ _ hbooks.queues.walks, hcount _ _ hbooks.faults.buffer,
    hcount _ _ hbooks.faults.processing, fun a ha => ?_⟩
  · rw [← hbooks.queues.custody u]
    simp only [placed, List.count_append]
    omega
  · refine hbooks.step_ne_error ha (by rintro ⟨⟩) ?_
    rintro (⟨⟨⟩⟩ | _ | ⟨_, _, _, ⟨⟩⟩)

/-- A uop that waits in one queue can be reached. -/
theorem uops_wait_once_twoFrames : ∃ s : Mmu, s.Reachable twoFrames ∧
    (uopsOf s.walkQueuePage ++ s.retryQueue ++ s.faultRetryQueue ++ uopsOf s.faultUops ++
      uopsOf s.faultUopsProcessing).count 0 = 1 := by
  obtain ⟨s, h, -, hwait, -⟩ := twoFrames_full
  refine ⟨s, h, ?_⟩
  rw [(uops_wait_once h).1 0, hwait]
  rfl

/-! ## The TLB -/

/-- The address that a TLB hit gives to a uop. -/
theorem translate_paddr {u : ℕ} {key : PageKey} (hnew : (s.uops u).translated = false)
    (hkey : k.keyOf (s.uops u) = .ok key) (ht : s.translate k u = .ok (true, s')) :
    ∃ frame, s.tlb.find key = some frame ∧
      (s'.uops u).paddr = k.physical frame (s.uops u).vaddr := by
  rw [Mmu.translate, hnew, if_neg (by simp), hkey] at ht
  simp only [bind, Except.bind] at ht
  split at ht
  · split at ht
    · cases ht
    · rename_i frame tlb hhit
      cases ht
      obtain ⟨node, hnode, hbind⟩ := Option.bind_eq_some_iff.mp hhit
      obtain ⟨tlb', -, hr⟩ := Option.bind_eq_some_iff.mp hbind
      obtain ⟨hframe, -⟩ := Prod.mk.inj (Option.some.inj hr)
      refine ⟨frame, ?_, by simp [Mmu.modifyUop, Mmu.setState]⟩
      exact Option.map_eq_some_iff.mpr ⟨node, hnode, hframe⟩
  · cases ht

/-- Counting walks leaves the addresses of the uops alone. -/
theorem addWalks_paddr (s : Mmu) (u v : ℕ) (d : ℤ) :
    ((s.addWalks u d).uops v).paddr = (s.uops v).paddr := by
  unfold Mmu.addWalks Mmu.modifyUop
  split
  · rfl
  · simp only [Function.update_apply]
    split
    · rename_i hv
      rw [hv]
    · rfl

/-- The address that a walk gives to a uop whose page is mapped. -/
theorem walk_paddr {u frame : ℕ} {key : PageKey} (hkey : k.keyOf (s.uops u) = .ok key)
    (hp : s.pageTable key = some frame) (hw : s.doPageTableWalks k u = .ok s') :
    (s'.uops u).paddr = k.physical frame (s.uops u).vaddr := by
  have hdone : ((s.walkDone k u frame).uops u).paddr = k.physical frame (s.uops u).vaddr := by
    unfold Mmu.walkDone
    extract_lets t
    have ht : (t.uops u).paddr = k.physical frame (s.uops u).vaddr := by
      simp [t, Mmu.modifyUop]
    split
    · exact ht
    · rw [addWalks_paddr, ht]
  rw [Mmu.doPageTableWalks, hkey] at hw
  simp only [bind, Except.bind, hp, Mmu.pageTableHit] at hw
  split at hw
  · cases hw
  · cases hw
  · cases hw
    exact hdone

/-- In every run, an entry of the TLB agrees with the page table; a frame that no page has, as one that
an eviction has set free, is not in the TLB; and a TLB hit gives a uop the address that a walk gives
it. -/
theorem tlb_agrees_with_page_table (h : s.Reachable k) :
    (∀ key f, s.tlb.find key = some f → s.pageTable key = some f) ∧
    (∀ f, (∀ key, s.pageTable key ≠ some f) → ∀ key, s.tlb.find key ≠ some f) ∧
    ∀ u key s₁, (s.uops u).translated = false → k.keyOf (s.uops u) = .ok key →
      s.translate k u = .ok (true, s₁) →
      ∃ frame, s.pageTable key = some frame ∧
        (s₁.uops u).paddr = k.physical frame (s.uops u).vaddr ∧
        ∀ s₂, s.doPageTableWalks k u = .ok s₂ → (s₂.uops u).paddr = (s₁.uops u).paddr := by
  have hagrees := (MmuBooks.of_reachable h).coherent.agrees
  refine ⟨hagrees, fun f hfree key hf => hfree key (hagrees key f hf), ?_⟩
  intro u key s₁ hnew hkey ht
  obtain ⟨frame, hfind, hpaddr⟩ := translate_paddr hnew hkey ht
  have hpage := hagrees key frame hfind
  refine ⟨frame, hpage, hpaddr, fun s₂ hw => ?_⟩
  rw [walk_paddr hkey hpage hw, hpaddr]

/-- A TLB with an entry can be reached, and agrees with the page table. -/
theorem tlb_agrees_with_page_table_twoFrames : ∃ s : Mmu, s.Reachable twoFrames ∧
    s.tlb.find ⟨0, -1⟩ = some 0 ∧ s.pageTable ⟨0, -1⟩ = some 0 := by
  obtain ⟨s, h, -, -, htlb⟩ := twoFrames_full
  exact ⟨s, h, htlb, (tlb_agrees_with_page_table h).1 ⟨0, -1⟩ 0 htlb⟩

end MacSim.Analysis
