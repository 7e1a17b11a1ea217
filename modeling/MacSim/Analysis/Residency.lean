import MacSim.Analysis.Translation

/-!
# The pages of the replacement unit

The replacement unit is to have the pages of the page table.  It has them as long as two things do not
happen.  A page is entered with the default pid, whatever process it belongs to; and an eviction resets
the entry before it erases the index of the entry, so that the index of the victim stays.  Runs without
either are `TrackedRun`s, and `Resident` is their invariant.
-/

set_option autoImplicit false

namespace MacSim.Analysis

open MacSim.Model MacSim.Computation Relation

variable {k : MmuKnobs} {s s' : Mmu} {p p' : Paging} {key : PageKey}

/-! ## The condition -/

instance (s : Mmu) : Decidable (TransferDue s) := inferInstanceAs (Decidable (_ ∧ _))

instance (s : Mmu) : Decidable (TransferOver s) := inferInstanceAs (Decidable (_ ∧ _))

/-- The page that gets a frame has the pid under which the replacement unit enters it. -/
def DefaultPid (s : Mmu) : Prop :=
  TransferOver s → ∀ key ∈ s.faultBufferProcessing.head?, key.pid = defaultPid

/-- The next transfer finds a free frame. -/
def EnoughFrames (s : Mmu) : Prop :=
  (TransferDue s → s.firstTransferStarted = false → 0 < s.freeFramesRemaining) ∧
  (TransferOver s → s.faultBufferProcessing.tail ≠ [] → 1 < s.freeFramesRemaining)

instance (s : Mmu) : Decidable (DefaultPid s) := inferInstanceAs (Decidable (_ → _))

instance (s : Mmu) : Decidable (EnoughFrames s) := inferInstanceAs (Decidable (_ ∧ _))

/-- The action does not enter a page under another pid and does not evict one. -/
def Tracked (s : Mmu) : MmuAction → Prop
  | .handlePageFaults _ => DefaultPid s ∧ EnoughFrames s
  | _ => True

/-- The runs in which every page that gets a frame has the default pid and no page is evicted. -/
inductive TrackedRun (k : MmuKnobs) : Mmu → Prop
  | start (cycle : ℕ) (started : Bool) (uops : ℕ → MmuUop) :
      TrackedRun k (initializeMmu k cycle started uops)
  | step {s s' : Mmu} (a : MmuAction) (h : TrackedRun k s) (ha : s.Allowed a)
      (ht : Tracked s a) (hs : s.step k a = .ok s') : TrackedRun k s'

/-- A tracked run is a run. -/
theorem TrackedRun.reachable (h : TrackedRun k s) : s.Reachable k := by
  induction h with
  | start cycle started uops => exact .start cycle started uops
  | step a _ ha _ hs ih => exact ih.step a ha hs

/-! ## The invariant -/

/-- The replacement unit has the pages of the page table, and an entry for every frame. -/
structure Resident (k : MmuKnobs) (p : Paging) : Prop where
  unit : WellFormed p.replacementUnit
  pages : ∀ key, (p.replacementUnit.table key).isSome ↔ (p.pageTable key).isSome
  pids : ∀ key f, p.pageTable key = some f → key.pid = defaultPid
  room : (p.replacementUnit.freeEntries.length : ℤ) = p.freeFramesRemaining
  size : p.replacementUnit.order.length + p.replacementUnit.freeEntries.length = k.numFrames

/-- At first no page is resident. -/
theorem Resident.initial (hs : k.noPageSwap = false) : Resident k (initializePaging k) where
  unit := WellFormed.new _ _
  pages _ := by simp [initializePaging, LruTable.new]
  pids _ _ hf := nomatch hf
  room := by simp [initializePaging, LruTable.new, hs]
  size := by simp [initializePaging, LruTable.new, hs]

/-- A look keeps the pages resident. -/
theorem Resident.look (h : Resident k p) (hs : k.noPageSwap = false) (hl : Look k p p') :
    Resident k p' := by
  cases hl with
  | hit ht => exact ⟨h.unit, h.pages, h.pids, h.room, h.size⟩
  | walk hkey ht hr =>
      rw [Mmu.touchPage, hs, if_neg (by simp)] at hr
      obtain ⟨node, hn⟩ := WellFormed.touch_eq_of_update hr
      obtain ⟨hmem, rfl⟩ := WellFormed.touch_eq hn
      refine ⟨h.unit.touch hn, h.pages, h.pids, h.room, ?_⟩
      rw [← h.size]
      simp only [List.length_cons, List.length_erase_of_mem hmem]
      have hpos := List.length_pos_of_mem hmem
      omega

/-- Looking pages up keeps the pages resident. -/
theorem Resident.looks (h : Resident k p) (hs : k.noPageSwap = false)
    (hl : ReflTransGen (Look k) p p') : Resident k p' := by
  induction hl with
  | refl => exact h
  | tail _ hlook ih => exact ih.look hs hlook

/-- A page of the default pid is entered under its own index, in a free entry. -/
theorem Resident.takes (h : Resident k p) (hs : k.noPageSwap = false) (hpid : key.pid = defaultPid)
    (ht : Takes k key p p') : Resident k p' := by
  cases ht with
  | next hs' _ =>
      rw [hs] at hs'
      exact nomatch hs'
  | @free frame unit _ hkey hlt hfree hpos hr =>
      have hindex : (⟨key.page, defaultPid⟩ : PageKey) = key := PageKey.ext rfl hpid.symm
      rw [hindex] at hr
      have hroom := h.room
      obtain ⟨-, node, ⟨hlast, rfl⟩ | ⟨hnil, -, -⟩⟩ := WellFormed.insert_cases hr
      · have hne : p.replacementUnit.freeEntries ≠ [] := by
          rintro hnil
          rw [hnil] at hlast
          exact nomatch hlast
        have hlen := List.length_pos_iff.mpr hne
        refine ⟨h.unit.insert hr, fun key' => ?_, fun key' f hf => ?_, ?_, ?_⟩
        · simp only [Function.update_apply]
          split
          · simp
          · exact h.pages key'
        · simp only [Function.update_apply] at hf
          split at hf
          · rename_i he
            exact he ▸ hpid
          · exact h.pids key' f hf
        · show ((p.replacementUnit.freeEntries.dropLast).length : ℤ) = p.freeFramesRemaining - 1
          rw [List.length_dropLast, ← hroom]
          omega
        · rw [← h.size]
          simp only [List.length_cons, List.length_dropLast]
          omega
      · rw [hnil] at hroom
        simp only [List.length_nil] at hroom
        omega

/-- The victim is a page of the page table. -/
theorem Resident.victim {victim : PageKey} {unit : ReplacementUnit} (h : Resident k p)
    (hv : ReplacementUnit.getVictim p.replacementUnit = some (victim, unit)) :
    (p.pageTable victim).isSome := by
  obtain ⟨node, hlast, hr⟩ := Option.map_eq_some_iff.mp hv
  obtain ⟨rfl, -⟩ := Prod.mk.inj hr
  have htable := (h.unit.listed (p.replacementUnit.entry node).key node).mpr
    ⟨List.mem_of_getLast? hlast, rfl⟩
  rw [← h.pages, htable]
  rfl

/-- There is a victim when no frame is left. -/
theorem Resident.exists_victim (h : Resident k p) (hn : 0 < k.numFrames)
    (hfull : p.freeFramesRemaining ≤ 0) :
    (ReplacementUnit.getVictim p.replacementUnit).isSome := by
  have hne : p.replacementUnit.order ≠ [] := by
    intro hnil
    have hsize := h.size
    have hroom := h.room
    rw [hnil] at hsize
    simp only [List.length_nil] at hsize
    omega
  simp [ReplacementUnit.getVictim, List.getLast?_isSome.mpr hne]

/-- With resident pages no victim is unmapped. -/
theorem Resident.evictError (h : Resident k p) : ¬ EvictError p .victimUnmapped := by
  rintro (_ | _ | ⟨hv, hkey⟩)
  have hmapped := h.victim hv
  rw [hkey] at hmapped
  exact nomatch hmapped

/-- The page of a fault has the default process. -/
theorem TransferOver.pid {rest : List PageKey} (ho : TransferOver s) (hpid : DefaultPid s)
    (hkey : s.faultBufferProcessing = key :: rest) : key.pid = defaultPid :=
  hpid ho key (by rw [hkey]; rfl)

/-- A batch keeps the invariant when it does not evict and its page has the default pid. -/
theorem Resident.batched (h : Resident k s.toPaging) (hs : k.noPageSwap = false)
    (hpid : DefaultPid s) (hroom : EnoughFrames s) (hb : Batched k s p) : Resident k p := by
  cases hb with
  | same => exact h
  | first hd hstart he =>
      have hfree := hroom.1 hd hstart
      have hfull := he.full
      omega
  | last ho hkey ht => exact h.takes hs (ho.pid hpid hkey) ht
  | @next key rest q _ ho hkey hr ht he =>
      have hfree := hroom.2 ho (by rwa [hkey])
      have hfull := he.full
      have hleft : q.freeFramesRemaining = s.freeFramesRemaining - 1 := by
        cases ht with
        | free => rfl
        | next hs' _ =>
            rw [hs] at hs'
            exact nomatch hs'
      omega

/-- The invariant holds in every tracked run. -/
theorem TrackedRun.resident (hs : k.noPageSwap = false) (h : TrackedRun k s) :
    Resident k s.toPaging := by
  induction h with
  | start cycle started uops => exact .initial hs
  | @step s s' a hrun ha ht hstep ih =>
      have hbooks := MmuBooks.of_reachable hrun.reachable
      cases a with
      | translate u =>
          have hmap : Meets ((s.translate k u).map (·.2))
              (fun t => ∃ b, Translated k s u (b, t)) (LookError k s.toPaging) :=
            (translate_meets k s u).map fun r hr => ⟨r.1, hr⟩
          obtain ⟨b, htr⟩ := hmap.result hstep
          cases htr with
          | found hl uops => exact ih.looks hs hl
          | missed key uops => exact ih
      | renew u uop =>
          cases hstep
          exact ih
      | resetWalks u =>
          cases hstep
          exact ih
      | runACycle pllLock answers =>
          exact ih.looks hs ((runACycle_meets k pllLock answers s hbooks.queues).result hstep).looks
      | handlePageFaults order =>
          obtain ⟨hbatched, -, -⟩ :=
            (handlePageFaults_meets hbooks.frames hbooks.faults hbooks.queues ha).result hstep
          exact ih.batched hs ht.1 ht.2 hbatched

/-! ## The assertions -/

/-- A page of the page table can be touched. -/
theorem Resident.lookError (h : Resident k p) (hs : k.noPageSwap = false) :
    ¬ LookError k p .replacementUpdate := by
  rintro (_ | _ | @⟨p', key, frame, hl, hkey, hr⟩)
  have h' := h.looks hs hl
  have hindex : (⟨key.page, defaultPid⟩ : PageKey) = key :=
    PageKey.ext rfl (h'.pids key frame hkey).symm
  have hin : (p'.replacementUnit.table key).isSome := by
    rw [h'.pages, hkey]
    rfl
  have hsome := h'.unit.update_isSome hin
  rw [Mmu.touchPage, hs, if_neg (by simp), hindex] at hr
  rw [hr] at hsome
  exact nomatch hsome

/-- A page that is not in the page table can be entered. -/
theorem Resident.insert_isSome (h : Resident k p) (hkey : p.pageTable key = none)
    (hpos : 0 < p.freeFramesRemaining) : (p.replacementUnit.insert key ()).isSome := by
  have hout : p.replacementUnit.table key = none := by
    rw [← Option.not_isSome_iff_eq_none, h.pages, hkey]
    exact Bool.false_ne_true
  have hne : p.replacementUnit.freeEntries ≠ [] := by
    intro hnil
    have hroom := h.room
    rw [hnil] at hroom
    simp only [List.length_nil] at hroom
    omega
  obtain ⟨node, hnode⟩ := Option.isSome_iff_exists.mp (List.getLast?_isSome.mpr hne)
  simp [LruTable.insert, hout, hnode]

/-- The assertions of the replacement unit, and of its caller on the victim. -/
def replacementAsserts : List MmuFault := [.victimUnmapped, .replacementUpdate, .replacementInsert]

/-- With resident pages a batch meets no assertion of the replacement unit. -/
theorem Resident.batchError (h : Resident k s.toPaging) (hs : k.noPageSwap = false)
    (hf : FaultBooks s.toPaging s.toFaults) (hpid : DefaultPid s) {e : MmuFault}
    (he : e ∈ replacementAsserts) : ¬ BatchError k s e := by
  -- Of the errors of an eviction, only the one on the victim is in the list.
  have hevict : ∀ q, Resident k q → ¬ EvictError q e := by
    intro q hq herr
    obtain rfl : e = .victimUnmapped := by
      cases herr with
      | noVictim => simp [replacementAsserts] at he
      | tlb => simp [replacementAsserts] at he
      | unmapped hv hkey => rfl
    exact hq.evictError herr
  intro herr
  cases herr with
  | first herr => exact hevict _ h herr
  | @insert key rest ho hkey _ hr =>
      have hin : key ∈ s.faultBufferProcessing := hkey ▸ List.mem_cons_self
      have hindex : (⟨key.page, defaultPid⟩ : PageKey) = key :=
        PageKey.ext rfl (ho.pid hpid hkey).symm
      have hsome := h.insert_isSome (hf.unmapped key (.inr hin)) (hf.ready ho.1.1 ho.2.1)
      rw [← hindex, hr] at hsome
      exact nomatch hsome
  | next ho hkey ht herr => exact hevict _ (h.takes hs (ho.pid hpid hkey) ht) herr

/-- In swap mode, in every run in which only pages of the default pid get frames and no page is evicted,
the replacement unit has the pages of the page table; its victim is one of them; and its assertions do
not fail, nor does the one on the victim. -/
theorem replacement_unit_tracks_pages (hs : k.noPageSwap = false) (h : TrackedRun k s) :
    (∀ key, (s.replacementUnit.table key).isSome ↔ (s.pageTable key).isSome) ∧
    (∀ victim unit, ReplacementUnit.getVictim s.replacementUnit = some (victim, unit) →
      (s.pageTable victim).isSome) ∧
    (0 < k.numFrames → s.freeFramesRemaining ≤ 0 →
      (ReplacementUnit.getVictim s.replacementUnit).isSome) ∧
    ∀ a, s.Allowed a → DefaultPid s → ∀ e ∈ replacementAsserts, s.step k a ≠ .error e := by
  have hres := h.resident hs
  have hbooks := MmuBooks.of_reachable h.reachable
  refine ⟨hres.pages, fun victim unit hv => hres.victim hv, fun hn hfull => hres.exists_victim hn hfull,
    fun a ha hpid e he => ?_⟩
  refine hbooks.step_ne_error ha (fun herr => ?_) (hres.batchError hs hbooks.faults hpid he)
  obtain rfl : e = .replacementUpdate := by
    cases herr with
    | badPid => simp [replacementAsserts] at he
    | tlb => simp [replacementAsserts] at he
    | unknown hl hkey hr => rfl
  exact hres.lookError hs herr

/-- A call is made only if it is tracked. -/
def trackStep (k : MmuKnobs) (s : Mmu) (a : MmuAction) : Except MmuFault Mmu :=
  if DefaultPid s ∧ EnoughFrames s then tryStep k s a else .error .badPid

/-- A run of plain steps is tracked. -/
theorem trackedRun_run {l : List MmuAction} (h : TrackedRun k s) (hl : ∀ a ∈ l, Plain a)
    (hr : l.foldlM (trackStep k) s = .ok s') : TrackedRun k s' := by
  refine run_keeps (fun a t t' ha ht hs => ?_) h hl hr
  rw [trackStep] at hs
  split at hs
  · rename_i htracked
    obtain ⟨hallowed, hstep⟩ := tryStep_allowed ha hs
    refine ht.step a hallowed ?_ hstep
    cases a with
    | handlePageFaults order => exact htracked
    | _ => exact True.intro
  · exact nomatch hs

/-- Two pages for two frames. -/
theorem replacement_unit_tracks_pages_twoFrames : ∃ s : Mmu, TrackedRun twoFrames s ∧
    s.freeFramesRemaining = 0 ∧ (ReplacementUnit.getVictim s.replacementUnit).isSome ∧
    ∀ key, (s.replacementUnit.table key).isSome ↔ (s.pageTable key).isSome := by
  obtain ⟨s, hs, hobs⟩ := exists_ok_of_observed
    (x := [.translate 0, .translate 1, quietCycle, frontFirst, frontFirst, frontFirst, frontFirst,
      quietCycle, quietCycle].foldlM (trackStep twoFrames) (initializeMmu twoFrames 0 false turnUop))
    (g := fun s => s.freeFramesRemaining) (b := 0) (by decide +kernel)
  have hrun : TrackedRun twoFrames s :=
    trackedRun_run (.start 0 false turnUop) (by simp [Plain]) hs
  obtain ⟨hpages, -, hvictim, -⟩ := replacement_unit_tracks_pages rfl hrun
  exact ⟨s, hrun, hobs, hvictim (by decide) (le_of_eq hobs), hpages⟩

/-- The MMU with two frames, and with a page table for each process. -/
def twoFramesPids : MmuKnobs := { twoFrames with foolPageTable := false }

/-- The assertion that a step fails. -/
def faultOf {ε σ : Type} : Except ε σ → Option ε
  | .ok _ => none
  | .error e => some e

/-- Three pages for two frames.  With one page table, at the end of the batch the replacement unit still
has the page that was evicted, and the next fault on that page fails an assertion.  With a page table for
each process, the first eviction fails the assertion on its victim. -/
theorem evicted_page_stays :
    (∃ s : Mmu, s.Reachable twoFrames ∧ s.batchProcessing = false ∧
      (s.replacementUnit.table ⟨0, -1⟩).isSome ∧ s.pageTable ⟨0, -1⟩ = none) ∧
    (∃ s : Mmu, s.Reachable twoFrames ∧ s.Allowed frontFirst ∧
      s.step twoFrames frontFirst = .error .replacementInsert) ∧
    ∃ s : Mmu, s.Reachable twoFramesPids ∧ s.Allowed frontFirst ∧
      s.step twoFramesPids frontFirst = .error .victimUnmapped := by
  have hallowed : ∀ s : Mmu, s.Allowed frontFirst := fun s l => .refl l
  refine ⟨?_, ?_, ?_⟩
  · obtain ⟨s, hs, hobs⟩ := exists_ok_of_observed
      (x := [.translate 0, .translate 1, .translate 2, quietCycle, frontFirst, frontFirst,
        frontFirst, frontFirst, frontFirst].foldlM (tryStep twoFrames)
        (initializeMmu twoFrames 0 false turnUop))
      (g := fun s => (s.batchProcessing, (s.replacementUnit.table ⟨0, -1⟩).isSome,
        s.pageTable ⟨0, -1⟩)) (b := (false, true, none)) (by decide +kernel)
    refine ⟨s, reachable_run (.start 0 false turnUop) (by simp [Plain]) hs, ?_⟩
    simpa using hobs
  · obtain ⟨s, hs, hobs⟩ := exists_ok_of_observed
      (x := [.translate 0, .translate 1, .translate 2, quietCycle, frontFirst, frontFirst,
        frontFirst, frontFirst, frontFirst, quietCycle, quietCycle, frontFirst,
        frontFirst].foldlM (tryStep twoFrames) (initializeMmu twoFrames 0 false turnUop))
      (g := fun s => faultOf (s.step twoFrames frontFirst)) (b := some .replacementInsert) (by decide +kernel)
    refine ⟨s, reachable_run (.start 0 false turnUop) (by simp [Plain]) hs, hallowed s, ?_⟩
    cases hstep : s.step twoFrames frontFirst with
    | ok t => simp [hstep, faultOf] at hobs
    | error e => simpa [hstep, faultOf] using hobs
  · obtain ⟨s, hs, hobs⟩ := exists_ok_of_observed
      (x := [.translate 0, .translate 1, .translate 2, quietCycle, frontFirst, frontFirst,
        frontFirst].foldlM (tryStep twoFramesPids) (initializeMmu twoFramesPids 0 false turnUop))
      (g := fun s => faultOf (s.step twoFramesPids frontFirst)) (b := some .victimUnmapped) (by decide +kernel)
    refine ⟨s, reachable_run (.start 0 false turnUop) (by simp [Plain]) hs, hallowed s, ?_⟩
    cases hstep : s.step twoFramesPids frontFirst with
    | ok t => simp [hstep, faultOf] at hobs
    | error e => simpa [hstep, faultOf] using hobs

end MacSim.Analysis
