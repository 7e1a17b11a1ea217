import MacSim.Computation.Outcome
import MacSim.Analysis.PagingBooks

/-!
# What a cycle of the MMU does

`Queues` says where the uops are that wait for a translation: each of them once in one of the five
containers, and the two walk queues have the same pages.  `FaultBooks` says that the two fault
buffers have the pages of the two tables of fault uops, and none that is mapped.  The specifications
of `translate`, `do_page_table_walks` and the loops of `run_a_cycle` say what each does to the
queues, the faults and the page table, and with which errors it can stop.
-/

set_option autoImplicit false

namespace MacSim.Analysis

open MacSim.Model MacSim.Computation Relation

/-! ## Lists of uops by page -/

/-- All uops of the lists. -/
def uopsOf (m : UopMap) : List ℕ := m.entries.flatMap fun e => e.2

/-- Taking a key out of a list takes out its uops. -/
theorem count_flatMap_kerase (l : List (Sigma fun _ : PageKey => List ℕ)) (key : PageKey) (v : ℕ) :
    ((l.kerase key).flatMap fun e => e.2).count v + ((l.dlookup key).getD []).count v =
      (l.flatMap fun e => e.2).count v := by
  induction l with
  | nil => simp
  | cons e l ih =>
      by_cases h : key = e.1
      · subst h
        rw [List.kerase_cons_eq rfl, show e = ⟨e.1, e.2⟩ from rfl, List.dlookup_cons_eq]
        simp only [Option.getD_some, List.flatMap_cons, List.count_append]
        omega
      · rw [List.kerase_cons_ne h, List.dlookup_cons_ne l e h]
        simp only [List.flatMap_cons, List.count_append]
        omega

/-- Erasing a page takes out its uops. -/
theorem count_uopsOf_erase (m : UopMap) (key : PageKey) (v : ℕ) :
    (uopsOf (m.erase key)).count v + ((m.lookup key).getD []).count v = (uopsOf m).count v :=
  count_flatMap_kerase m.entries key v

/-- Adding a uop at a page adds that uop. -/
theorem count_uopsOf_push (m : UopMap) (key : PageKey) (u v : ℕ) :
    (uopsOf (m.push key u)).count v = (uopsOf m).count v + [u].count v := by
  have h := count_uopsOf_erase m key v
  have hpush : uopsOf (m.push key u) =
      ((m.lookup key).getD [] ++ [u]) ++ uopsOf (m.erase key) := rfl
  rw [hpush, List.count_append, List.count_append]
  omega

/-- Adding a uop at a page adds the page if it is new. -/
theorem keys_push (m : UopMap) (key : PageKey) (u : ℕ) :
    (m.push key u).keys.Perm (if key ∈ m then m.keys else m.keys ++ [key]) := by
  rw [UopMap.push, AList.keys_insert]
  split
  · exact (List.perm_cons_erase ‹_›).symm
  · rw [List.erase_of_not_mem ‹_›]
    exact (List.perm_append_singleton key m.keys).symm

/-! ## The invariants -/

/-- The fault buffers go with the tables of fault uops, and their pages are not mapped. -/
structure FaultLists (p : Paging) (f : Faults) : Prop where
  buffer : f.faultBuffer.Perm f.faultUops.keys
  processing : f.faultBufferProcessing.Perm f.faultUopsProcessing.keys
  unmapped : ∀ key, key ∈ f.faultBuffer ∨ key ∈ f.faultBufferProcessing → p.pageTable key = none

/-- A batch has a page to process, and a frame for it once its transfer has started. -/
structure FaultBooks (p : Paging) (f : Faults) : Prop extends FaultLists p f where
  idle : f.batchProcessing = false → f.faultBufferProcessing = []
  busy : f.batchProcessing = true → f.faultBufferProcessing ≠ []
  ready : f.batchProcessing = true → f.firstTransferStarted = true → 0 < p.freeFramesRemaining

/-- Looking pages up keeps the books of the faults. -/
theorem FaultBooks.looks {k : MmuKnobs} {p p' : Paging} {f : Faults} (h : FaultBooks p f)
    (hl : ReflTransGen (Look k) p p') : FaultBooks p' f := by
  obtain ⟨tlb, unit, rfl⟩ := looks_unchanged hl
  exact ⟨⟨h.buffer, h.processing, h.unmapped⟩, h.idle, h.busy, h.ready⟩

/-- A new fault. -/
theorem FaultBooks.fault {p : Paging} {f : Faults} {key : PageKey} (h : FaultBooks p f)
    (hkey : p.pageTable key = none) (u : ℕ) :
    FaultBooks p { f with
      faultBuffer := if key ∈ f.faultBuffer then f.faultBuffer else f.faultBuffer ++ [key]
      faultUops := f.faultUops.push key u } := by
  refine ⟨⟨?_, h.processing, fun key' hk => ?_⟩, h.idle, h.busy, h.ready⟩
  · refine List.Perm.trans ?_ (keys_push f.faultUops key u).symm
    have hmem : key ∈ f.faultUops ↔ key ∈ f.faultBuffer := by
      rw [AList.mem_keys, h.buffer.mem_iff]
    simp only [hmem]
    split
    · exact h.buffer
    · exact h.buffer.append_right [key]
  · obtain hb | hp := hk
    · dsimp only at hb
      split at hb
      · exact h.unmapped key' (.inl hb)
      · obtain hb | hb := List.mem_append.mp hb
        · exact h.unmapped key' (.inl hb)
        · rw [List.mem_singleton.mp hb]
          exact hkey
    · exact h.unmapped key' (.inr hp)

/-- The containers of uops other than the walk queue. -/
def placed (s : Mmu) : List ℕ :=
  s.retryQueue ++ s.faultRetryQueue ++ uopsOf s.faultUops ++ uopsOf s.faultUopsProcessing

/-- Every uop that waits is in one place, and the walk queues have the same pages. -/
structure Queues (s : Mmu) : Prop where
  custody : ∀ u, (uopsOf s.walkQueuePage).count u + (placed s).count u =
    if s.waiting u then 1 else 0
  walks : (s.walkQueueCycle.flatMap (·.2)).Perm s.walkQueuePage.keys

variable {k : MmuKnobs} {s s' : Mmu} {u : ℕ} {key : PageKey}

/-- The errors of lookups: a pid, the TLB, or a page of the page table that the replacement unit does
not know. -/
inductive LookError (k : MmuKnobs) (p : Paging) : MmuFault → Prop
  | badPid : LookError k p .badPid
  | tlb : LookError k p .tlb
  | unknown {p' : Paging} {key : PageKey} {frame : ℕ} (hl : ReflTransGen (Look k) p p')
      (hkey : p'.pageTable key = some frame)
      (hr : Mmu.touchPage k p'.replacementUnit key.page = none) :
      LookError k p .replacementUpdate

/-- An error after looking pages up is an error before it. -/
theorem LookError.before {p p' : Paging} {e : MmuFault} (hl : ReflTransGen (Look k) p p')
    (h : LookError k p' e) : LookError k p e := by
  cases h with
  | badPid => exact .badPid
  | tlb => exact .tlb
  | unknown hl' hkey hr => exact .unknown (hl.trans hl') hkey hr

/-- Finding the page of a uop fails for a bad process only. -/
theorem keyOf_meets (uop : MmuUop) :
    Meets (k.keyOf uop) (fun _ => True) (fun e => e = .badPid) := by
  unfold MmuKnobs.keyOf MmuKnobs.getPid
  split
  · exact True.intro
  · split
    · rfl
    · exact True.intro

/-! ## Translation -/

/-- Counting walks changes the uops only. -/
theorem addWalks_eq (s : Mmu) (u : ℕ) (d : ℤ) : ∃ uops, s.addWalks u d = { s with uops := uops } := by
  unfold Mmu.addWalks
  split
  · exact ⟨s.uops, rfl⟩
  · exact ⟨_, rfl⟩

/-- The uop waits in the walk queue, for its page. -/
def joined (k : MmuKnobs) (s : Mmu) (u : ℕ) (key : PageKey) (uops : ℕ → MmuUop) : Mmu :=
  { s with
    uops := uops
    walkQueueCycle :=
      if key ∈ s.walkQueuePage then s.walkQueueCycle
      else emplaceWalk (s.cycle + k.walkLatency) key s.walkQueueCycle
    walkQueuePage := s.walkQueuePage.push key u
    waiting := Function.update s.waiting u true }

/-- Joining a walk puts the uop with the others. -/
theorem joinWalk_eq (k : MmuKnobs) (s : Mmu) (u : ℕ) (key : PageKey) :
    ∃ uops, s.joinWalk k u key = joined k s u key uops := by
  by_cases hmem : key ∈ s.walkQueuePage
  · simp only [Mmu.joinWalk, joined, hmem, if_true]
    generalize hs : Mmu.setState _ u .walkQueue = t
    obtain ⟨uops, hu⟩ := addWalks_eq t u 1
    rw [hu, ← hs]
    exact ⟨uops, rfl⟩
  · simp only [Mmu.joinWalk, joined, hmem, if_false]
    generalize hs : Mmu.setState _ u .walkQueue = t
    obtain ⟨uops, hu⟩ := addWalks_eq t u 1
    rw [hu, ← hs]
    exact ⟨uops, rfl⟩

/-- What `translate` can do. -/
inductive Translated (k : MmuKnobs) (s : Mmu) (u : ℕ) : Bool × Mmu → Prop
  | found {p : Paging} (hl : ReflTransGen (Look k) s.toPaging p) (uops : ℕ → MmuUop) :
      Translated k s u (true, { s with toPaging := p, uops := uops })
  | missed (key : PageKey) (uops : ℕ → MmuUop) : Translated k s u (false, joined k s u key uops)

/-- A translation does what it should or fails as a look does. -/
theorem translate_meets (k : MmuKnobs) (s : Mmu) (u : ℕ) :
    Meets (s.translate k u) (Translated k s u) (LookError k s.toPaging) := by
  unfold Mmu.translate
  split
  · exact .found .refl s.uops
  · refine ((keyOf_meets _).mono (fun _ h => h) ?_).bind fun key _ => ?_
    · rintro _ rfl
      exact .badPid
    · dsimp only
      split
      · split
        · exact .tlb
        · rename_i frame tlb ht
          obtain ⟨node, -, hbind⟩ := Option.bind_eq_some_iff.mp ht
          obtain ⟨tlb', htouch, hr⟩ := Option.bind_eq_some_iff.mp hbind
          obtain ⟨-, rfl⟩ := Prod.mk.inj (Option.some.inj hr)
          have hl : ReflTransGen (Look k) s.toPaging { s.toPaging with tlb := tlb' } :=
            .single (.hit htouch)
          exact .found hl _
      · obtain ⟨uops, hj⟩ := joinWalk_eq k (s.setState u .begin) u key
        show Translated k s u (false, (s.setState u .begin).joinWalk k u key)
        rw [hj]
        exact .missed key uops

/-- What an access of the first level cache can do. -/
inductive Accessed (k : MmuKnobs) (s : Mmu) (u : ℕ) : ℤ × Mmu → Prop
  | again {p : Paging} (hl : ReflTransGen (Look k) s.toPaging p) (uops : ℕ → MmuUop) :
      Accessed k s u (0, { s with toPaging := p, uops := uops })
  | success {p : Paging} (hl : ReflTransGen (Look k) s.toPaging p) (uops : ℕ → MmuUop) {answer : ℤ}
      (ha : answer ≠ 0) :
      Accessed k s u (answer, { s with
        toPaging := p, uops := uops, waiting := Function.update s.waiting u false })
  | missed (key : PageKey) (uops : ℕ → MmuUop) : Accessed k s u (-1, joined k s u key uops)

/-- An access does what it should or fails as a look does. -/
theorem access_meets (k : MmuKnobs) (s : Mmu) (u : ℕ) (answer : ℤ) :
    Meets (s.access k u answer) (Accessed k s u) (LookError k s.toPaging) := by
  refine (translate_meets k s u).bind ?_
  rintro _ (⟨hl, uops⟩ | ⟨key, uops⟩)
  · by_cases ha : answer = 0
    · subst ha
      exact .again hl uops
    · simp only [if_true, ne_eq, ha, not_false_eq_true]
      exact .success hl uops ha
  · exact .missed key uops

/-! ## The queues -/

/-- A new walk adds its page to those under way. -/
theorem emplaceWalk_perm (cycle : ℕ) (key : PageKey) (l : List (ℕ × List PageKey)) :
    ((emplaceWalk cycle key l).flatMap (·.2)).Perm (l.flatMap (·.2) ++ [key]) := by
  induction l with
  | nil => simp [emplaceWalk]
  | cons e l ih =>
      obtain ⟨c, keys⟩ := e
      simp only [emplaceWalk]
      split
      · exact (List.perm_append_singleton key _).symm
      · split
        · simp only [List.flatMap_cons, List.append_assoc]
          exact List.Perm.append_left keys List.perm_append_comm
        · simp only [List.flatMap_cons, List.append_assoc]
          exact List.Perm.append_left keys ih

/-- A uop that does not wait joins a walk. -/
theorem Queues.joined (h : Queues s) (k : MmuKnobs) (u : ℕ) (key : PageKey) (uops : ℕ → MmuUop)
    (hu : s.waiting u = false) : Queues (joined k s u key uops) := by
  refine ⟨fun v => ?_, ?_⟩
  · have hv := h.custody v
    show (uopsOf (s.walkQueuePage.push key u)).count v + (placed s).count v =
      if Function.update s.waiting u true v then 1 else 0
    rw [count_uopsOf_push, Function.update_apply]
    by_cases hvu : v = u
    · subst hvu
      rw [hu] at hv
      simp at hv ⊢
      omega
    · have hne : ¬ u = v := fun he => hvu he.symm
      simpa [hvu, hne] using hv
  · refine List.Perm.trans ?_ (keys_push s.walkQueuePage key u).symm
    show List.Perm (List.flatMap _ (if _ then _ else _)) _
    split
    · exact h.walks
    · exact (emplaceWalk_perm _ key _).trans (h.walks.append_right [key])

/-- A uop leaves the retry queue and does not wait any more. -/
theorem Queues.leave {kept rest : List ℕ} (h : Queues s) (hq : s.retryQueue = kept ++ u :: rest) :
    Queues { s with
      retryQueue := kept ++ rest, waiting := Function.update s.waiting u false } := by
  refine ⟨fun v => ?_, h.walks⟩
  have hv := h.custody v
  simp only [placed, hq, List.count_append, List.count_cons, Function.update_apply] at hv ⊢
  by_cases hvu : v = u
  · subst hvu
    simp only [beq_self_eq_true, if_true, Bool.false_eq_true, if_false] at hv ⊢
    split at hv <;> omega
  · have hne : (u == v) = false := beq_false_of_ne fun he => hvu he.symm
    simp only [hne, hvu, if_false, Bool.false_eq_true] at hv ⊢
    omega

/-- What the loops of a cycle do to an MMU whose queues are in order. -/
structure Kept (k : MmuKnobs) (s s' : Mmu) : Prop where
  looks : ReflTransGen (Look k) s.toPaging s'.toPaging
  queues : Queues s'
  faults : FaultBooks s.toPaging s.toFaults → FaultBooks s'.toPaging s'.toFaults

/-- What is kept from a later state on is kept. -/
theorem Kept.later {x : Except MmuFault Mmu} {s₁ : Mmu}
    (h : Meets x (Kept k s₁) (LookError k s₁.toPaging))
    (hl : ReflTransGen (Look k) s.toPaging s₁.toPaging)
    (hf : FaultBooks s.toPaging s.toFaults → FaultBooks s₁.toPaging s₁.toFaults) :
    Meets x (Kept k s) (LookError k s.toPaging) :=
  h.mono (fun _ ht => ⟨hl.trans ht.looks, ht.queues, fun hb => ht.faults (hf hb)⟩)
    (fun _ he => he.before hl)

/-- The loop over the retry queue. -/
theorem retryLoop_meets (k : MmuKnobs) (answers : ℕ → ℤ) (kept rest : List ℕ) (s : Mmu)
    (hq : s.retryQueue = kept ++ rest) (h : Queues s) :
    Meets (Mmu.retryLoop k answers kept rest s) (Kept k s) (LookError k s.toPaging) := by
  induction rest generalizing kept s with
  | nil => exact ⟨.refl, h, fun hf => hf⟩
  | cons u rest ih =>
      refine (access_meets k s u (answers u)).bind ?_
      rintro _ (@⟨p, hl, uops⟩ | @⟨p, hl, uops, answer, ha⟩ | ⟨key, uops⟩)
      · have hloop := ih (kept ++ [u]) { s with toPaging := p, uops := uops } (by simpa using hq)
          ⟨h.custody, h.walks⟩
        exact Kept.later hloop hl fun hf => hf.looks hl
      · have hleft := h.leave hq
        have hloop := ih kept { s with
          toPaging := p, uops := uops, retryQueue := kept ++ rest
          waiting := Function.update s.waiting u false } rfl ⟨hleft.custody, hleft.walks⟩
        simp only [ne_eq, ha, not_false_eq_true, if_true]
        exact Kept.later hloop hl fun hf => hf.looks hl
      · -- The uop goes from the retry queue to the walk queue.
        have hjoin := (h.leave hq).joined k u key uops (by simp)
        simp only [joined, Function.update_idem] at hjoin
        exact Kept.later (ih kept _ rfl hjoin) .refl fun hf => hf

/-! ## Page table walks -/

/-- A walk that is done changes the uops only. -/
theorem walkDone_eq (k : MmuKnobs) (s : Mmu) (u frame : ℕ) :
    ∃ uops, s.walkDone k u frame = { s with uops := uops } := by
  unfold Mmu.walkDone
  extract_lets t
  split
  · exact ⟨_, rfl⟩
  · obtain ⟨uops, hu⟩ := addWalks_eq t u (-1)
    exact ⟨uops, hu⟩

/-- Noting a fault changes the uops and the parents of faults only. -/
theorem noteFault_eq (s : Mmu) (u : ℕ) :
    ∃ uops parents, s.noteFault u = { s with uops := uops, faultParents := parents } := by
  unfold Mmu.noteFault
  split
  · exact ⟨_, _, rfl⟩
  · obtain ⟨uops, hu⟩ := addWalks_eq s u (-1)
    rw [hu]
    exact ⟨_, _, rfl⟩

/-- What the walk for a uop does: the uop goes to one of three places, and nothing else moves. -/
structure Moved (k : MmuKnobs) (s : Mmu) (l : List ℕ) (s' : Mmu) : Prop where
  looks : ReflTransGen (Look k) s.toPaging s'.toPaging
  faults : FaultBooks s.toPaging s.toFaults → FaultBooks s'.toPaging s'.toFaults
  placed : ∀ v, (placed s').count v = (placed s).count v + l.count v
  pages : s'.walkQueuePage = s.walkQueuePage
  cycles : s'.walkQueueCycle = s.walkQueueCycle
  waiting : s'.waiting = s.waiting

/-- A unit that does nothing moves no uop. -/
theorem Moved.refl (k : MmuKnobs) (s : Mmu) : Moved k s [] s :=
  ⟨.refl, fun h => h, fun _ => rfl, rfl, rfl, rfl⟩

/-- Two moves of uops in a row move those of the first and then those of the second. -/
theorem Moved.trans {s₁ s₂ s₃ : Mmu} {l l' : List ℕ} (h : Moved k s₁ l s₂)
    (h' : Moved k s₂ l' s₃) : Moved k s₁ (l ++ l') s₃ where
  looks := h.looks.trans h'.looks
  faults hf := h'.faults (h.faults hf)
  placed v := by rw [h'.placed, h.placed, List.count_append, Nat.add_assoc]
  pages := h'.pages.trans h.pages
  cycles := h'.cycles.trans h.cycles
  waiting := h'.waiting.trans h.waiting

/-- A walk that finds its page moves its uop on or fails as a look does. -/
theorem pageTableHit_meets {frame : ℕ} (hkey : s.pageTable key = some frame) :
    Meets (s.pageTableHit k u key frame) (Moved k s [u]) (LookError k s.toPaging) := by
  unfold Mmu.pageTableHit
  split
  · exact .tlb
  · rename_i hr
    exact .unknown .refl hkey hr
  · rename_i tlb unit ht hr
    obtain ⟨uops, hu⟩ := walkDone_eq k s u frame
    have hl : ReflTransGen (Look k) s.toPaging
        { s.toPaging with tlb := tlb, replacementUnit := unit } := .single (.walk hkey ht hr)
    dsimp only
    rw [hu]
    refine ⟨hl, fun hf => hf.looks hl, fun v => ?_, rfl, rfl, rfl⟩
    simp only [placed, List.count_append]
    omega

/-- A walk that finds no page moves its uop to the faults. -/
theorem pageFault_moved (hkey : s.pageTable key = none) : Moved k s [u] (s.pageFault k u key) := by
  unfold Mmu.pageFault
  split
  · refine ⟨.refl, fun hf => hf, fun v => ?_, rfl, rfl, rfl⟩
    simp only [placed, Mmu.setState, Mmu.modifyUop, List.count_append]
    omega
  · dsimp only
    generalize ht : ({ s with
      faultBuffer := if key ∈ s.faultBuffer then s.faultBuffer else s.faultBuffer ++ [key]
      faultUops := s.faultUops.push key u } : Mmu) = t
    obtain ⟨uops, parents, hn⟩ := noteFault_eq t u
    rw [hn, ← ht]
    refine ⟨.refl, fun hf => hf.fault hkey u, fun v => ?_, rfl, rfl, rfl⟩
    simp only [placed, Mmu.setState, Mmu.modifyUop, List.count_append, count_uopsOf_push]
    omega

/-- The specification of a walk. -/
theorem doPageTableWalks_meets (k : MmuKnobs) (s : Mmu) (u : ℕ) :
    Meets (s.doPageTableWalks k u) (Moved k s [u]) (LookError k s.toPaging) := by
  refine ((keyOf_meets _).mono (fun _ h => h) ?_).bind fun key _ => ?_
  · rintro _ rfl
    exact .badPid
  · split
    · exact pageTableHit_meets ‹_›
    · exact pageFault_moved ‹_›

/-- The walks of a list of uops. -/
theorem walks_meets (k : MmuKnobs) (s : Mmu) (l : List ℕ) :
    Meets (l.foldlM (Mmu.doPageTableWalks k) s) (Moved k s l) (LookError k s.toPaging) := by
  have hloop := Meets.foldlM (I := fun rest t => ∃ done, done ++ rest = l ∧ Moved k s done t)
    (f := Mmu.doPageTableWalks k) (E := LookError k s.toPaging) l s ⟨[], rfl, .refl k s⟩
    fun v rest t ⟨done, hdone, ht⟩ => (doPageTableWalks_meets k t v).mono
      (fun t' ht' => ⟨done ++ [v], by simpa using hdone, ht.trans ht'⟩)
      (fun e he => he.before ht.looks)
  refine hloop.mono (fun t ht => ?_) fun e he => he
  obtain ⟨done, hdone, hm⟩ := ht
  rw [List.append_nil] at hdone
  exact hdone ▸ hm

/-- The faults that did not fit into the buffer are tried again. -/
theorem retryFaults_meets (k : MmuKnobs) (s : Mmu) (h : Queues s) :
    Meets (s.retryFaults k) (Kept k s) (LookError k s.toPaging) := by
  unfold Mmu.retryFaults
  split
  · refine (walks_meets k { s with faultRetryQueue := [] } s.faultRetryQueue).mono ?_ fun e he => he
    intro t ht
    refine ⟨ht.looks, ⟨fun v => ?_, ?_⟩, ht.faults⟩
    · rw [ht.pages, ht.placed, ht.waiting, ← h.custody v]
      simp only [placed, List.count_append, List.count_nil]
      omega
    · rw [ht.pages, ht.cycles]
      exact h.walks
  · exact ⟨.refl, h, fun hf => hf⟩

/-! ## The walk queue -/

/-- The state in the middle of a list of walks: `keys` are still to be walked, `rest` are the later
lists. -/
structure Walking (k : MmuKnobs) (s : Mmu) (rest : List (ℕ × List PageKey)) (keys : List PageKey)
    (s' : Mmu) : Prop where
  looks : ReflTransGen (Look k) s.toPaging s'.toPaging
  faults : FaultBooks s.toPaging s.toFaults → FaultBooks s'.toPaging s'.toFaults
  custody : ∀ u, (uopsOf s'.walkQueuePage).count u + (placed s').count u =
    if s'.waiting u then 1 else 0
  walks : (keys ++ rest.flatMap (·.2)).Perm s'.walkQueuePage.keys

/-- The walk of one page. -/
theorem walkPage_meets {rest : List (ℕ × List PageKey)} {keys : List PageKey} {t : Mmu}
    (h : Walking k s rest (key :: keys) t) :
    Meets (t.walkPage k key) (Walking k s rest keys) (LookError k s.toPaging) := by
  refine ((walks_meets k t _).mono (fun _ h => h) fun e he => he.before h.looks).bind ?_
  intro t' ht
  refine ⟨h.looks.trans ht.looks, fun hf => ht.faults (h.faults hf), fun v => ?_, ?_⟩
  · have hcount := count_uopsOf_erase t.walkQueuePage key v
    have hold := h.custody v
    have hplaced := ht.placed v
    show (uopsOf (t'.walkQueuePage.erase key)).count v + (placed t').count v =
      if t'.waiting v then 1 else 0
    rw [ht.pages, ht.waiting, ← hold]
    omega
  · show List.Perm _ (t'.walkQueuePage.erase key).keys
    rw [ht.pages, AList.keys_erase]
    have hperm := h.walks.erase key
    rwa [List.cons_append, List.erase_cons_head] at hperm

/-- The loop over the walks that are due. -/
theorem walkLoop_meets (k : MmuKnobs) (queue : List (ℕ × List PageKey)) (s : Mmu)
    (hq : s.walkQueueCycle = queue) (h : Queues s) :
    Meets (Mmu.walkLoop k queue s) (Kept k s) (LookError k s.toPaging) := by
  induction queue generalizing s with
  | nil => exact ⟨.refl, h, fun hf => hf⟩
  | cons e rest ih =>
      obtain ⟨c, keys⟩ := e
      unfold Mmu.walkLoop
      split
      · have hstart : Walking k s rest keys s :=
          ⟨.refl, fun hf => hf, h.custody, by simpa [hq] using h.walks⟩
        refine (Meets.foldlM keys s hstart fun key keys t ht => walkPage_meets ht).bind ?_
        intro t ht
        have hloop := ih { t with walkQueueCycle := rest } rfl ⟨ht.custody, ht.walks⟩
        exact Kept.later hloop ht.looks ht.faults
      · exact ⟨.refl, h, fun hf => hf⟩

/-- The specification of a cycle. -/
theorem runACycle_meets (k : MmuKnobs) (pllLock : Bool) (answers : ℕ → ℤ) (s : Mmu)
    (h : Queues s) :
    Meets (s.runACycle k pllLock answers) (Kept k s) (LookError k s.toPaging) := by
  unfold Mmu.runACycle
  split
  · exact ⟨.refl, ⟨h.custody, h.walks⟩, fun hf => hf⟩
  · refine (retryLoop_meets k answers [] s.retryQueue s rfl h).bind fun s₁ h₁ => ?_
    refine Kept.later ?_ h₁.looks h₁.faults
    refine (retryFaults_meets k s₁ h₁.queues).bind fun s₂ h₂ => ?_
    refine Kept.later ?_ h₂.looks h₂.faults
    refine (walkLoop_meets k _ s₂ rfl h₂.queues).bind fun s₃ h₃ => ?_
    exact ⟨h₃.looks, ⟨h₃.queues.custody, h₃.queues.walks⟩, h₃.faults⟩

end MacSim.Analysis
