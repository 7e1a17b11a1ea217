import MacSim.Analysis.MmuCycle

/-!
# What a batch of page faults does

`do_batch_processing` prepares a transfer, which may evict a page, or ends one, which maps a page and
releases its uops.  `Batched` are the four ways in which a call can change the page table.  With the
specification of a cycle this gives the invariant of all runs, `MmuBooks`.
-/

set_option autoImplicit false

namespace MacSim.Analysis

open MacSim.Model MacSim.Computation Relation

variable {k : MmuKnobs} {s s' : Mmu} {key : PageKey}

/-- The errors of an eviction. -/
inductive EvictError (p : Paging) : MmuFault → Prop
  | noVictim : EvictError p .noVictim
  | tlb : EvictError p .tlb
  | unmapped {victim : PageKey} {unit : ReplacementUnit}
      (hv : ReplacementUnit.getVictim p.replacementUnit = some (victim, unit))
      (hkey : p.pageTable victim = none) : EvictError p .victimUnmapped

/-- An eviction makes one frame free and maps no page. -/
structure Evicted (k : MmuKnobs) (p p' : Paging) : Prop where
  move : PagingMove k p p'
  full : p.freeFramesRemaining ≤ 0
  remaining : p'.freeFramesRemaining = p.freeFramesRemaining + 1
  unmapped : ∀ key, p.pageTable key = none → p'.pageTable key = none

/-- An eviction frees a frame or ends in its own error. -/
theorem evict_meets {p : Paging} (hfull : p.freeFramesRemaining ≤ 0) :
    Meets p.evict (Evicted k p) (EvictError p) := by
  unfold Paging.evict
  split
  · exact .noVictim
  · rename_i victim unit hv
    split
    · exact .unmapped hv ‹_›
    · rename_i frame hframe
      split
      · exact .tlb
      · rename_i tlb ht
        refine ⟨.evict hv hframe ht hfull, hfull, rfl, fun key hkey => ?_⟩
        show Function.update p.pageTable victim none key = none
        rw [Function.update_apply]
        split
        · rfl
        · exact hkey

/-- A transfer is prepared, with an eviction or without. -/
theorem prepareTransfer_meets (k : MmuKnobs) (s : Mmu) :
    Meets (s.prepareTransfer k)
      (fun s' => ∃ p time, s' = { s with toPaging := p, nextEventCycle := time } ∧
        ((p = s.toPaging ∧ 0 < s.freeFramesRemaining) ∨ Evicted k s.toPaging p))
      (EvictError s.toPaging) := by
  unfold Mmu.prepareTransfer
  split
  · exact ⟨s.toPaging, _, rfl, .inl ⟨rfl, ‹_›⟩⟩
  · exact (evict_meets (not_lt.mp ‹_›)).bind fun p hp => ⟨p, _, rfl, .inr hp⟩

/-! ## The end of a transfer -/

/-- Retrying uops changes their marks and lengthens the retry queue. -/
theorem retryUops_eq (s : Mmu) (l : List ℕ) :
    ∃ uops, s.retryUops l = { s with uops := uops, retryQueue := s.retryQueue ++ l } := by
  have hfold : ∃ uops, l.foldl (fun s u => s.setState u .retryQueue) s = { s with uops := uops } := by
    induction l generalizing s with
    | nil => exact ⟨s.uops, rfl⟩
    | cons u l ih =>
        obtain ⟨uops, hu⟩ := ih (s.setState u .retryQueue)
        exact ⟨uops, hu⟩
  obtain ⟨uops, hu⟩ := hfold
  exact ⟨uops, by rw [Mmu.retryUops, hu]⟩

/-- The uops of a page leave the tables of fault uops for the retry queue. -/
structure Released (key : PageKey) (s s' : Mmu) : Prop where
  paging : s'.toPaging = s.toPaging
  faults : s'.toFaults = { s.toFaults with
    faultUopsProcessing := s.faultUopsProcessing.erase key
    faultUops := s.faultUops.erase key
    faultBuffer := if key ∈ s.faultUops then s.faultBuffer.erase key else s.faultBuffer }
  placed : ∀ v, (placed s').count v = (placed s).count v
  pages : s'.walkQueuePage = s.walkQueuePage
  cycles : s'.walkQueueCycle = s.walkQueueCycle
  waiting : s'.waiting = s.waiting

/-- Releasing the uops of a fault under way never fails. -/
theorem releaseUops_meets (h : key ∈ s.faultUopsProcessing) :
    Meets (s.releaseUops key) (Released key s) (fun _ => False) := by
  unfold Mmu.releaseUops
  split
  · rename_i hnone
    exact AList.lookup_eq_none.mp hnone h
  · rename_i l hl
    obtain ⟨uops, hu⟩ := retryUops_eq s l
    have hpro := count_uopsOf_erase s.faultUopsProcessing key
    rw [hl] at hpro
    dsimp only
    rw [hu]
    split
    · rename_i hnone
      have hout : key ∉ s.faultUops := AList.lookup_eq_none.mp hnone
      have herase : s.faultUops.erase key = s.faultUops := by
        refine AList.ext ?_
        show s.faultUops.entries.kerase key = _
        exact List.kerase_of_notMem_keys hout
      refine ⟨rfl, ?_, fun v => ?_, rfl, rfl, rfl⟩
      · rw [if_neg hout, herase]
      · have hv := hpro v
        simp only [placed, List.count_append, Option.getD_some] at hv ⊢
        omega
    · rename_i l' hl'
      have hin : key ∈ s.faultUops := by
        rw [← AList.lookup_isSome]
        exact Option.isSome_iff_exists.mpr ⟨l', hl'⟩
      have huops := count_uopsOf_erase s.faultUops key
      rw [show s.faultUops.lookup key = some l' from hl'] at huops
      generalize ht : ({ s with
        uops := uops, retryQueue := s.retryQueue ++ l
        faultUopsProcessing := s.faultUopsProcessing.erase key } : Mmu) = t
      obtain ⟨uops', hu'⟩ := retryUops_eq t l'
      rw [hu', ← ht]
      refine ⟨rfl, ?_, fun v => ?_, rfl, rfl, rfl⟩
      · rw [if_pos hin]
      · have hv := hpro v
        have hv' := huops v
        simp only [placed, List.count_append, Option.getD_some] at hv hv' ⊢
        omega

/-- The lists of faults after the first page of the batch was mapped. -/
theorem FaultLists.mapped {p p' : Paging} {f : Faults} {rest : List PageKey} {frame : ℕ}
    (h : FaultLists p f) (hf : f.faultBufferProcessing = key :: rest)
    (hp : p'.pageTable = Function.update p.pageTable key (some frame)) :
    FaultLists p' { f with
      faultBufferProcessing := rest
      faultUopsProcessing := f.faultUopsProcessing.erase key
      faultUops := f.faultUops.erase key
      faultBuffer := if key ∈ f.faultUops then f.faultBuffer.erase key else f.faultBuffer } := by
  have hmem : key ∈ f.faultUops ↔ key ∈ f.faultBuffer := by
    rw [AList.mem_keys, h.buffer.mem_iff]
  have hbuffer : (if key ∈ f.faultUops then f.faultBuffer.erase key else f.faultBuffer) =
      f.faultBuffer.erase key := by
    split
    · rfl
    · exact (List.erase_of_not_mem (mt hmem.mpr ‹_›)).symm
  have hnodup : f.faultBuffer.Nodup := h.buffer.nodup_iff.mpr f.faultUops.keys_nodup
  have hnodup' : (key :: rest).Nodup :=
    hf ▸ h.processing.nodup_iff.mpr f.faultUopsProcessing.keys_nodup
  rw [hbuffer]
  refine ⟨?_, ?_, fun key' hk => ?_⟩
  · show (f.faultBuffer.erase key).Perm (f.faultUops.erase key).keys
    rw [AList.keys_erase]
    exact h.buffer.erase key
  · show rest.Perm (f.faultUopsProcessing.erase key).keys
    have hperm := h.processing.erase key
    rwa [hf, List.erase_cons_head, ← AList.keys_erase] at hperm
  · obtain hb | hr := hk
    · obtain ⟨hne, hb⟩ := (hnodup.mem_erase_iff).mp hb
      rw [hp, Function.update_of_ne hne]
      exact h.unmapped key' (.inl hb)
    · have hne : key' ≠ key := by
        rintro rfl
        exact (List.nodup_cons.mp hnodup').1 hr
      rw [hp, Function.update_of_ne hne]
      exact h.unmapped key' (.inr (hf ▸ List.mem_cons_of_mem key hr))

/-- What the end of a transfer does. -/
structure Resolved (k : MmuKnobs) (key : PageKey) (rest : List PageKey) (s s' : Mmu) : Prop where
  takes : Takes k key s.toPaging s'.toPaging
  lists : FaultLists s'.toPaging s'.toFaults
  rest : s'.faultBufferProcessing = rest
  batch : s'.batchProcessing = s.batchProcessing
  started : s'.firstTransferStarted = s.firstTransferStarted
  queues : Queues s'

/-- Resolving a fault maps its page or fails on an insertion into the replacement unit. -/
theorem resolveFault_meets {rest : List PageKey} (hb : FrameBooks k s.toPaging)
    (hf : FaultLists s.toPaging s.toFaults) (hq : Queues s) (hpos : 0 < s.freeFramesRemaining)
    (hkey : s.faultBufferProcessing = key :: rest) :
    Meets (s.resolveFault k) (Resolved k key rest s)
      (fun e => e = .replacementInsert ∧ k.noPageSwap = false ∧
        s.replacementUnit.insert ⟨key.page, defaultPid⟩ () = none) := by
  have hun : s.pageTable key = none := hf.unmapped key (.inr (by rw [hkey]; exact List.mem_cons_self))
  have hin : key ∈ s.faultUopsProcessing := by
    rw [AList.mem_keys, ← hf.processing.mem_iff, hkey]
    exact List.mem_cons_self
  unfold Mmu.resolveFault
  rw [if_neg (not_le.mpr hpos), hkey]
  obtain ⟨q, hq', hmap⟩ := hb.allocate hpos hun
  rw [hq']
  show Meets (q.mapPage k key >>= fun p =>
    Mmu.releaseUops { s with toPaging := p, faultBufferProcessing := rest } key) _ _
  obtain ⟨herr, hr⟩ | ⟨p, hok, htakes⟩ := hmap
  · rw [herr]
    exact ⟨rfl, hr⟩
  · rw [hok]
    obtain ⟨-, frame, hpt⟩ := htakes.pageTable_eq
    refine (releaseUops_meets (s := { s with toPaging := p, faultBufferProcessing := rest }) hin).mono
      (fun s' hs' => ?_) fun e he => he.elim
    refine ⟨hs'.paging ▸ htakes, ?_, ?_, ?_, ?_, fun v => ?_, ?_⟩
    · rw [hs'.paging, hs'.faults]
      exact hf.mapped hkey hpt
    · rw [show s'.faultBufferProcessing = s'.toFaults.faultBufferProcessing from rfl, hs'.faults]
    · rw [show s'.batchProcessing = s'.toFaults.batchProcessing from rfl, hs'.faults]
    · rw [show s'.firstTransferStarted = s'.toFaults.firstTransferStarted from rfl, hs'.faults]
    · rw [hs'.pages, hs'.placed, hs'.waiting]
      exact hq.custody v
    · rw [hs'.pages, hs'.cycles]
      exact hq.walks

/-! ## The call -/

/-- The transfers of the batch have begun. -/
def TransferDue (s : Mmu) : Prop := s.batchProcessing = true ∧ s.before s.transferStartCycle = false

/-- The transfer of a page is over. -/
def TransferOver (s : Mmu) : Prop :=
  TransferDue s ∧ s.firstTransferStarted = true ∧ s.before s.nextEventCycle = false

/-- The ways in which a call changes the page table. -/
inductive Batched (k : MmuKnobs) (s : Mmu) : Paging → Prop
  | same : Batched k s s.toPaging
  | first {p : Paging} (hd : TransferDue s) (hs : s.firstTransferStarted = false)
      (he : Evicted k s.toPaging p) : Batched k s p
  | last {key : PageKey} {rest : List PageKey} {p : Paging} (ho : TransferOver s)
      (hkey : s.faultBufferProcessing = key :: rest) (ht : Takes k key s.toPaging p) :
      Batched k s p
  | next {key : PageKey} {rest : List PageKey} {p p' : Paging} (ho : TransferOver s)
      (hkey : s.faultBufferProcessing = key :: rest) (hr : rest ≠ [])
      (ht : Takes k key s.toPaging p) (he : Evicted k p p') : Batched k s p'

/-- The errors of a call: an eviction fails, or the replacement unit has the page already. -/
inductive BatchError (k : MmuKnobs) (s : Mmu) : MmuFault → Prop
  | first {e : MmuFault} (he : EvictError s.toPaging e) : BatchError k s e
  | insert {key : PageKey} {rest : List PageKey} (ho : TransferOver s)
      (hkey : s.faultBufferProcessing = key :: rest) (hs : k.noPageSwap = false)
      (hr : s.replacementUnit.insert ⟨key.page, defaultPid⟩ () = none) :
      BatchError k s .replacementInsert
  | next {key : PageKey} {rest : List PageKey} {p : Paging} {e : MmuFault} (ho : TransferOver s)
      (hkey : s.faultBufferProcessing = key :: rest)
      (ht : Takes k key s.toPaging p) (he : EvictError p e) : BatchError k s e

/-- The state after a call, when a batch was going on. -/
structure AfterBatch (k : MmuKnobs) (s : Mmu) (ended : Bool) (s' : Mmu) : Prop where
  batched : Batched k s s'.toPaging
  faults : FaultBooks s'.toPaging s'.toFaults
  queues : Queues s'
  ended : ended = true → s'.batchProcessing = false

/-- A frame is free once a transfer is prepared. -/
theorem remaining_of_prepared {p p' : Paging} (hb : FrameBooks k p)
    (h : (p' = p ∧ 0 < p.freeFramesRemaining) ∨ Evicted k p p') : 0 < p'.freeFramesRemaining := by
  obtain ⟨rfl, hpos⟩ | he := h
  · exact hpos
  · have hnn := hb.remaining_nonneg
    rw [he.remaining]
    omega

/-- After the preparation no page is mapped that was not before. -/
theorem unmapped_of_prepared {p p' : Paging}
    (h : (p' = p ∧ 0 < p.freeFramesRemaining) ∨ Evicted k p p') :
    ∀ key, p.pageTable key = none → p'.pageTable key = none := by
  obtain ⟨rfl, -⟩ | he := h
  · exact fun _ hk => hk
  · exact he.unmapped

/-- The specification of `do_batch_processing`. -/
theorem doBatchProcessing_meets (hb : FrameBooks k s.toPaging)
    (hf : FaultBooks s.toPaging s.toFaults) (hq : Queues s) (hrun : s.batchProcessing = true) :
    Meets (s.doBatchProcessing k) (fun r => AfterBatch k s r.1 r.2) (BatchError k s) := by
  unfold Mmu.doBatchProcessing
  split
  · exact ⟨.same, hf, hq, fun h => nomatch h⟩
  · rename_i hdue
    have hd : TransferDue s := ⟨hrun, by simpa using hdue⟩
    split
    · rename_i hstart
      have hstart : s.firstTransferStarted = false := by simpa using hstart
      refine ((prepareTransfer_meets k s).mono (fun _ h => h) fun e he => .first he).bind ?_
      rintro _ ⟨p, time, rfl, hp⟩
      refine ⟨?_, ⟨⟨hf.buffer, hf.processing, fun key hk => ?_⟩, hf.idle, hf.busy, fun _ _ => ?_⟩,
        ⟨hq.custody, hq.walks⟩, fun h => nomatch h⟩
      · obtain ⟨rfl, -⟩ | he := hp
        · exact .same
        · exact .first hd hstart he
      · exact unmapped_of_prepared hp key (hf.unmapped key hk)
      · exact remaining_of_prepared hb hp
    · rename_i hstart
      have hstart : s.firstTransferStarted = true := by simpa using hstart
      split
      · exact ⟨.same, hf, hq, fun h => nomatch h⟩
      · rename_i hover
        have ho : TransferOver s := ⟨hd, hstart, by simpa using hover⟩
        obtain ⟨key, rest, hkey⟩ := List.exists_cons_of_ne_nil (hf.busy hrun)
        have hres := resolveFault_meets hb hf.toFaultLists hq (hf.ready hrun hstart) hkey
        refine (hres.mono (fun _ h => h) ?_).bind fun t ht => ?_
        · rintro _ ⟨rfl, hs, hr⟩
          exact .insert ho hkey hs hr
        · split
          · -- The batch is over.
            rename_i hnil
            refine ⟨.last ho hkey ht.takes, ⟨⟨ht.lists.buffer, ht.lists.processing,
              ht.lists.unmapped⟩, fun _ => hnil, fun h => (nomatch h), fun h => (nomatch h)⟩,
              ⟨ht.queues.custody, ht.queues.walks⟩, fun _ => rfl⟩
          · rename_i hne
            have hbatch : t.batchProcessing = true := ht.batch.trans hrun
            refine ((prepareTransfer_meets k t).mono (fun _ h => h)
              fun e he => .next ho hkey ht.takes he).bind ?_
            rintro _ ⟨p, time, rfl, hp⟩
            refine ⟨?_, ⟨⟨ht.lists.buffer, ht.lists.processing, fun key' hk => ?_⟩, fun h => ?_,
              fun _ => hne, fun _ _ => ?_⟩, ⟨ht.queues.custody, ht.queues.walks⟩,
              fun h => nomatch h⟩
            · obtain ⟨rfl, -⟩ | he := hp
              · exact .last ho hkey ht.takes
              · exact .next ho hkey (ht.rest ▸ hne) ht.takes he
            · exact unmapped_of_prepared hp key' (ht.lists.unmapped key' hk)
            · rw [show t.batchProcessing = false from h] at hbatch
              exact nomatch hbatch
            · exact remaining_of_prepared (hb.takes ht.takes) hp

/-- A batch is begun with all faults of the buffer. -/
theorem startBatch_meets {order : List PageKey} (hf : FaultBooks s.toPaging s.toFaults)
    (hq : Queues s) (hidle : s.batchProcessing = false) (horder : order.Perm s.faultBuffer) :
    Meets (s.startBatch k order)
      (fun s' => s'.toPaging = s.toPaging ∧ FaultBooks s'.toPaging s'.toFaults ∧ Queues s')
      (fun _ => False) := by
  unfold Mmu.startBatch
  split
  · exact ⟨rfl, hf, hq⟩
  · rename_i hne
    rw [Mmu.beginBatchProcessing, hidle, if_neg (by simp)]
    have hnil : s.faultBufferProcessing = [] := hf.idle hidle
    have hsort : ((s.faultBufferProcessing ++ order).insertionSort fun a b => a.page ≤ b.page).Perm
        s.faultBuffer := by
      rw [hnil, List.nil_append]
      exact (List.perm_insertionSort _ order).trans horder
    have hempty : s.faultUopsProcessing.keys = [] := by
      have hperm := hf.processing
      rw [hnil] at hperm
      exact List.nil_perm.mp hperm
    have hnone : uopsOf s.faultUopsProcessing = [] := by
      rw [uopsOf, List.map_eq_nil_iff.mp hempty]
      rfl
    refine ⟨rfl, ⟨⟨.refl _, hsort.trans hf.buffer, fun key hk => ?_⟩, fun h => (nomatch h),
      fun _ h => ?_, fun _ h => (nomatch h)⟩, ⟨fun v => ?_, hq.walks⟩⟩
    · obtain hb | hp := hk
      · exact nomatch hb
      · exact hf.unmapped key (.inl (hsort.mem_iff.mp hp))
    · rw [show List.insertionSort _ _ = [] from h] at hsort
      exact hne (List.nil_perm.mp hsort)
    · have hv := hq.custody v
      have hunone : uopsOf (∅ : UopMap) = [] := rfl
      simp only [placed, hnone, hunone, List.append_nil, List.count_append] at hv ⊢
      exact hv

/-- The specification of `handle_page_faults`. -/
theorem handlePageFaults_meets {order : List PageKey → List PageKey} (hb : FrameBooks k s.toPaging)
    (hf : FaultBooks s.toPaging s.toFaults) (hq : Queues s) (horder : ReadsAll order) :
    Meets (s.handlePageFaults k order)
      (fun s' => Batched k s s'.toPaging ∧ FaultBooks s'.toPaging s'.toFaults ∧ Queues s')
      (BatchError k s) := by
  unfold Mmu.handlePageFaults
  split
  · rename_i hrun
    refine (doBatchProcessing_meets hb hf hq hrun).bind ?_
    rintro ⟨ended, t⟩ ht
    cases ended with
    | false => exact ⟨ht.batched, ht.faults, ht.queues⟩
    | true =>
        refine (startBatch_meets ht.faults ht.queues (ht.ended rfl) (horder _)).mono ?_
          fun e he => he.elim
        rintro t' ⟨hp, hf', hq'⟩
        exact ⟨hp ▸ ht.batched, hf', hq'⟩
  · rename_i hrun
    refine (startBatch_meets hf hq (by simpa using hrun) (horder _)).mono ?_ fun e he => he.elim
    rintro t ⟨hp, hf', hq'⟩
    exact ⟨hp ▸ .same, hf', hq'⟩

/-- A batch is made of page moves. -/
theorem Batched.moves {p : Paging} (h : Batched k s p) :
    ReflTransGen (PagingMove k) s.toPaging p := by
  cases h with
  | same => exact .refl
  | first hd hs he => exact .single he.move
  | last ho hkey ht => exact .single (.take ht)
  | next ho hkey hr ht he => exact (ReflTransGen.single (.take ht)).tail he.move

/-! ## All runs -/

/-- The invariant of an MMU. -/
structure MmuBooks (k : MmuKnobs) (s : Mmu) : Prop where
  frames : FrameBooks k s.toPaging
  coherent : Coherent s.toPaging
  faults : FaultBooks s.toPaging s.toFaults
  queues : Queues s

/-- A new unit has its books in order. -/
theorem MmuBooks.initial (k : MmuKnobs) (cycle : ℕ) (started : Bool) (uops : ℕ → MmuUop) :
    MmuBooks k (initializeMmu k cycle started uops) where
  frames := .initial k
  coherent := .initial k
  faults := ⟨⟨.refl _, .refl _, fun _ _ => rfl⟩, fun _ => rfl, fun h => (nomatch h),
    fun h => (nomatch h)⟩
  queues := ⟨fun _ => rfl, .refl _⟩

/-- The moves of the page table keep both of its invariants. -/
theorem MmuBooks.of_moves {p : Paging} (h : MmuBooks k s)
    (hm : ReflTransGen (PagingMove k) s.toPaging p) : FrameBooks k p ∧ Coherent p := by
  induction hm with
  | refl => exact ⟨h.frames, h.coherent⟩
  | tail _ hmove ih => exact ⟨ih.1.move hmove, ih.2.move hmove⟩

/-- Looking pages up is made of page moves. -/
theorem moves_of_looks {p p' : Paging} (h : ReflTransGen (Look k) p p') :
    ReflTransGen (PagingMove k) p p' :=
  ReflTransGen.mono (fun _ _ hl => PagingMove.look hl) _ _ h

/-- One action keeps the invariant. -/
theorem MmuBooks.step {a : MmuAction} (h : MmuBooks k s) (ha : s.Allowed a)
    (hs : s.step k a = .ok s') : MmuBooks k s' := by
  cases a with
  | translate u =>
      have hmap : Meets ((s.translate k u).map (·.2))
          (fun t => ∃ b, Translated k s u (b, t)) (LookError k s.toPaging) :=
        (translate_meets k s u).map fun r hr => ⟨r.1, hr⟩
      obtain ⟨b, ht⟩ := hmap.result hs
      cases ht with
      | found hl uops =>
          obtain ⟨hframes, hcoherent⟩ := h.of_moves (moves_of_looks hl)
          exact ⟨hframes, hcoherent, h.faults.looks hl, ⟨h.queues.custody, h.queues.walks⟩⟩
      | missed key uops =>
          exact ⟨h.frames, h.coherent, h.faults, h.queues.joined k u key uops ha⟩
  | renew u uop =>
      cases hs
      exact ⟨h.frames, h.coherent, h.faults, ⟨h.queues.custody, h.queues.walks⟩⟩
  | resetWalks u =>
      cases hs
      exact ⟨h.frames, h.coherent, h.faults, ⟨h.queues.custody, h.queues.walks⟩⟩
  | runACycle pllLock answers =>
      have hkept := (runACycle_meets k pllLock answers s h.queues).result hs
      obtain ⟨hframes, hcoherent⟩ := h.of_moves (moves_of_looks hkept.looks)
      exact ⟨hframes, hcoherent, hkept.faults h.faults, hkept.queues⟩
  | handlePageFaults order =>
      obtain ⟨hbatched, hfaults, hqueues⟩ :=
        (handlePageFaults_meets h.frames h.faults h.queues ha).result hs
      obtain ⟨hframes, hcoherent⟩ := h.of_moves hbatched.moves
      exact ⟨hframes, hcoherent, hfaults, hqueues⟩

/-- The invariant holds in every run. -/
theorem MmuBooks.of_reachable (h : s.Reachable k) : MmuBooks k s := by
  induction h with
  | start cycle started uops => exact .initial k cycle started uops
  | step a _ ha hs ih => exact ih.step ha hs

end MacSim.Analysis
