import MacSim.Analysis.ThreadTally

/-!
# Dispatching thread blocks

A GPU core has no more blocks than its process allows, and no more threads than it has reorder
buffers.  A block is dispatched on one core as long as a core continues only blocks of its own,
and the warps of a block are all dispatched as long as it grows only while its core is fetching
it.
-/

set_option autoImplicit false

namespace MacSim.Analysis

open MacSim.Model
open MacSim.Computation

variable {k : ProcKnobs} {s : ProcManager}

/-! ## Processes and their blocks -/

/-- A block belongs to one process, and a GPU core has blocks of its own process only. -/
structure Owners (k : ProcKnobs) (s : ProcManager) : Prop where
  mapped : ∀ p key b, s.mapper p key = some b → b < s.mapperSize
  mapped_inj : ∀ p key p' key' b, s.mapper p key = some b → s.mapper p' key' = some b → p = p'
  listed : ∀ p b, s.blockList p b = true → ∃ key, s.mapper p key = some b
  queued : ∀ b, ∀ n ∈ s.queueOf b, ∃ key, s.mapper n.process key = some b
  fetching : ∀ c, k.coreType c = .ptx → ∀ b, (s.core c).fetchingBlockId = some b →
    ∃ key, s.mapper (s.core c).applId key = some b
  appl : ∀ c, k.coreType c = .ptx → (s.core c).applId = k.coreAppl c
  blocks : ∀ c, k.coreType c = .ptx → (s.core c).runningBlockNum ≤ k.maxBlock (s.core c).applId

/-- At first no block belongs to a process. -/
theorem owners_init (k : ProcKnobs) : Owners k (ProcManager.init k) := by
  refine ⟨?_, ?_, ?_, ?_, ?_, fun _ _ => rfl, fun c _ => ?_⟩
  · intro p key b h
    cases h
  · intro p key p' key' b h
    cases h
  · intro p b h
    cases h
  · intro b n h
    cases h
  · intro c _ b h
    cases h
  · exact Int.natCast_nonneg _

/-- The number that the mapper gives to a block. -/
theorem mapBlock_mapper (s : ProcManager) (process key : ℕ) :
    (s.mapBlock process key).2.mapper process key = some (s.mapBlock process key).1 := by
  unfold ProcManager.mapBlock
  split
  case h_1 b hb => exact hb
  case h_2 => simp

/-- A block that is mapped belongs to the process that maps it. -/
theorem owners_mapBlock (h : Owners k s) (process key : ℕ) :
    Owners k (s.mapBlock process key).2 := by
  unfold ProcManager.mapBlock
  split
  case h_1 => exact h
  case h_2 hnone =>
    have hcases : ∀ p key' b, Function.update s.mapper process
        (Function.update (s.mapper process) key (some s.mapperSize)) p key' = some b →
        s.mapper p key' = some b ∨ p = process ∧ b = s.mapperSize := by
      intro p key' b hb
      by_cases hp : p = process
      · subst hp
        rw [Function.update_self, Function.update_apply] at hb
        split at hb
        case isTrue => exact Or.inr ⟨rfl, (Option.some.inj hb).symm⟩
        case isFalse => exact Or.inl hb
      · rw [Function.update_of_ne hp] at hb
        exact Or.inl hb
    have hkept : ∀ p key' b, s.mapper p key' = some b → Function.update s.mapper process
        (Function.update (s.mapper process) key (some s.mapperSize)) p key' = some b := by
      intro p key' b hb
      by_cases hp : p = process
      · subst hp
        have hkey : key' ≠ key := by
          rintro rfl
          rw [hnone] at hb
          cases hb
        rw [Function.update_self, Function.update_of_ne hkey, hb]
      · rw [Function.update_of_ne hp, hb]
    refine ⟨?_, ?_, ?_, ?_, ?_, h.appl, h.blocks⟩
    · intro p key' b hb
      rcases hcases p key' b hb with hold | ⟨-, rfl⟩
      · exact Nat.lt_succ_of_lt (h.mapped p key' b hold)
      · exact Nat.lt_succ_self _
    · intro p key₁ p' key₂ b hb hb'
      rcases hcases p key₁ b hb with hold | ⟨hp, hnew⟩
      · rcases hcases p' key₂ b hb' with hold' | ⟨-, rfl⟩
        · exact h.mapped_inj p key₁ p' key₂ b hold hold'
        · exact absurd (h.mapped _ _ _ hold) (lt_irrefl _)
      · rcases hcases p' key₂ b hb' with hold' | ⟨hp', -⟩
        · rw [hnew] at hold'
          exact absurd (h.mapped _ _ _ hold') (lt_irrefl _)
        · rw [hp, hp']
    · intro p b hb
      obtain ⟨key', hkey'⟩ := h.listed p b hb
      exact ⟨key', hkept _ _ _ hkey'⟩
    · intro b n hn
      obtain ⟨key', hkey'⟩ := h.queued b n hn
      exact ⟨key', hkept _ _ _ hkey'⟩
    · intro c hc b hb
      obtain ⟨key', hkey'⟩ := h.fetching c hc b hb
      exact ⟨key', hkept _ _ _ hkey'⟩

/-- A block is entered in the list of its process. -/
theorem owners_list (h : Owners k s) {process key b : ℕ} (hb : s.mapper process key = some b) :
    Owners k { s with
      blockList := Function.update s.blockList process
        (Function.update (s.blockList process) b true) } :=
  { h with
    listed := by
      intro p b' hb'
      by_cases hp : p = process
      · subst hp
        simp only [Function.update_self, Function.update_apply] at hb'
        split at hb'
        case isTrue heq => exact ⟨key, heq ▸ hb⟩
        case isFalse => exact h.listed p b' hb'
      · simp only [Function.update_of_ne hp] at hb'
        exact h.listed p b' hb' }

/-- A warp that is listed belongs to the process of its block. -/
theorem owners_insertBlock (h : Owners k s) {node : ThreadNode} {key : ℕ}
    (hb : s.mapper node.process key = some node.blockId) : Owners k (s.insertBlock node) :=
  { h with
    queued := by
      intro b n hn
      have hqueue := queueOf_setQueue s node.blockId b (some (s.queueOf node.blockId ++
        [{ node with id := s.inserted, uid := (s.infoFor node.blockId).uid }]))
      have hn' : n ∈ (s.setQueue node.blockId (some (s.queueOf node.blockId ++
        [{ node with id := s.inserted, uid := (s.infoFor node.blockId).uid }]))).queueOf b := hn
      rw [hqueue] at hn'
      split at hn'
      case isTrue heq =>
        rcases List.mem_append.mp hn' with hold | hnew
        · rw [heq]
          exact h.queued _ n hold
        · rw [List.mem_singleton.mp hnew, heq]
          exact ⟨key, hb⟩
      case isFalse => exact h.queued b n hn' }

/-- A dispatch to a core of another type, or of a warp of the core's process. -/
theorem owners_place (h : Owners k s) {c : ℕ} {node : ThreadNode} (robs : ℕ)
    (hnode : k.coreType c = .ptx → node.process = (s.core c).applId) :
    Owners k (s.place c node robs) := by
  refine ⟨h.mapped, h.mapped_inj, h.listed, h.queued, ?_, ?_, ?_⟩
  · intro c' hc' b hb
    rw [core_place] at hb ⊢
    split at hb
    case isTrue heq =>
      rw [if_pos heq]
      dsimp only
      rw [hnode (heq ▸ hc')]
      exact h.fetching c (heq ▸ hc') b hb
    case isFalse hne =>
      rw [if_neg hne]
      exact h.fetching c' hc' b hb
  · intro c' hc'
    rw [core_place]
    split
    case isTrue heq =>
      dsimp only
      rw [hnode (heq ▸ hc'), heq]
      exact h.appl c (heq ▸ hc')
    case isFalse => exact h.appl c' hc'
  · intro c' hc'
    rw [core_place]
    split
    case isTrue heq =>
      dsimp only
      rw [hnode (heq ▸ hc')]
      exact h.blocks c (heq ▸ hc')
    case isFalse => exact h.blocks c' hc'

/-- A core starts a block of its own process. -/
theorem owners_startBlock (h : Owners k s) {c b : ℕ}
    (hlisted : s.blockList (s.core c).applId b = true)
    (hroom : ¬ (s.core c).runningBlockNum + 1 > k.maxBlock (s.core c).applId) :
    Owners k (s.startBlock c b) := by
  refine ⟨h.mapped, h.mapped_inj, h.listed, h.queued, ?_, ?_, ?_⟩
  · intro c' hc' b' hb'
    rw [core_startBlock] at hb' ⊢
    split at hb'
    case isTrue heq =>
      rw [if_pos heq]
      obtain rfl := Option.some.inj hb'
      exact h.listed _ _ hlisted
    case isFalse hne =>
      rw [if_neg hne]
      exact h.fetching c' hc' b' hb'
  · intro c' hc'
    rw [core_startBlock]
    split
    case isTrue heq => exact heq ▸ h.appl c' hc'
    case isFalse => exact h.appl c' hc'
  · intro c' hc'
    rw [core_startBlock]
    split
    case isTrue heq =>
      dsimp only
      omega
    case isFalse => exact h.blocks c' hc'

/-- The end of a thread changes no block's process. -/
theorem owners_finishThread (h : Owners k s) (c tid : ℕ) (node : ThreadNode) :
    Owners k (s.finishThread k c tid node) := by
  refine ⟨h.mapped, h.mapped_inj, h.listed, h.queued, ?_, ?_, ?_⟩
  · intro c' hc' b hb
    rw [core_finishThread] at hb ⊢
    split at hb
    case isTrue heq =>
      rw [if_pos heq]
      exact h.fetching c (heq ▸ hc') b hb
    case isFalse hne =>
      rw [if_neg hne]
      exact h.fetching c' hc' b hb
  · intro c' hc'
    rw [core_finishThread]
    split
    case isTrue heq => exact heq ▸ h.appl c' hc'
    case isFalse => exact h.appl c' hc'
  · intro c' hc'
    rw [core_finishThread]
    split
    case isTrue heq => exact h.blocks c (heq ▸ hc')
    case isFalse => exact h.blocks c' hc'

/-- The end of a warp changes no block's process. -/
theorem owners_retireWarp (h : Owners k s) (c : ℕ) (node : ThreadNode) :
    Owners k (s.retireWarp c node) := by
  unfold ProcManager.retireWarp
  split
  case h_1 => exact h
  case h_2 i hi =>
    split
    case isFalse =>
      exact ⟨h.mapped, h.mapped_inj, h.listed, h.queued, h.fetching, h.appl, h.blocks⟩
    case isTrue =>
      have hcore := core_updateBlockNum s.core c ((s.core c).runningBlockNum - 1)
      refine ⟨h.mapped, h.mapped_inj, ?_, ?_, ?_, ?_, ?_⟩
      · intro p b hb
        refine h.listed p b ?_
        by_cases hp : p = node.process
        · subst hp
          simp only [Function.update_self, Function.update_apply] at hb
          split at hb
          case isTrue => cases hb
          case isFalse => exact hb
        · simp only [Function.update_of_ne hp] at hb
          exact hb
      · intro b n hn
        have hqueue := queueOf_setQueue s node.blockId b none
        have hn' : n ∈ (s.setQueue node.blockId none).queueOf b := hn
        rw [hqueue] at hn'
        split at hn'
        case isTrue => cases hn'
        case isFalse => exact h.queued b n hn'
      · intro c' hc' b hb
        change (Function.update s.core c _ c').fetchingBlockId = some b at hb
        change ∃ key, s.mapper (Function.update s.core c _ c').applId key = some b
        rw [hcore] at hb ⊢
        exact h.fetching c' hc' b hb
      · intro c' hc'
        exact (congrArg SchedCore.applId (hcore c')).trans (h.appl c' hc')
      · intro c' hc'
        change (Function.update s.core c _ c').runningBlockNum ≤
          k.maxBlock (Function.update s.core c _ c').applId
        have hle := h.blocks c' hc'
        rw [hcore]
        dsimp only
        split
        case isTrue heq =>
          rw [← heq]
          omega
        case isFalse => exact hle

/-! ## Where the warps of a block are -/

/-- The running threads of a GPU core have a reorder buffer each, the warps of a block are on its
core, and those that wait can still be dispatched there. -/
structure OnItsCore (k : ProcKnobs) (s : ProcManager) : Prop where
  robs : ∀ c, k.coreType c = .ptx →
    (s.core c).freeRobs + (s.core c).runningThreadNum = k.maxThreadsPerCore c
  unstarted : ∀ b i, s.info b = some i → i.startToFetch = false → i.dispatchedCoreId = none
  recorded : ∀ c, ∀ x ∈ (s.core c).threads, ∀ b i, s.info b = some i → x.node.uid = i.uid →
    i.dispatchedCoreId = some c
  oneCore : ∀ c c', ∀ x ∈ (s.core c).threads, ∀ y ∈ (s.core c').threads,
    x.node.uid = y.node.uid → 0 < x.node.uid → c = c'
  reachable : ∀ b, s.queueOf b ≠ [] → ∀ i, s.info b = some i → i.startToFetch = true →
    ∃ c, i.dispatchedCoreId = some c ∧ (s.core c).fetchingBlockId = some b

/-- At first no warp is on a core, and every reorder buffer is free. -/
theorem onItsCore_init (k : ProcKnobs) : OnItsCore k (ProcManager.init k) := by
  refine ⟨?_, ?_, ?_, ?_, ?_⟩
  · intro c hc
    simp [ProcManager.init, hc, CoreType.hasGpuRob]
  · intro b i hi _
    simp only [ProcManager.init] at hi
    split at hi
    case isTrue =>
      obtain rfl := Option.some.inj hi
      rfl
    case isFalse => cases hi
  · intro c x hx
    cases hx
  · intro c c' x hx
    cases hx
  · intro b hb
    exact absurd rfl hb

/-- A core fetches the block that grows. -/
def GrowsWhileFetched (s : ProcManager) (b : ℕ) : Prop :=
  ∀ i ∈ s.info b, i.startToFetch = true →
    ∃ c ∈ i.dispatchedCoreId, (s.core c).fetchingBlockId = some b

/-- A warp that is listed is on no core yet. -/
theorem onItsCore_insertBlock (h : OnItsCore k s) (hbooks : BlockBooks k s) {node : ThreadNode}
    (hgrows : GrowsWhileFetched s node.blockId) : OnItsCore k (s.insertBlock node) := by
  have hinfo : ∀ b, (s.insertBlock node).info b = if b = node.blockId then
      some { s.infoFor node.blockId with
        totalThreadNum := (s.infoFor node.blockId).totalThreadNum + 1, traceExist := true }
      else s.info b := fun b => Function.update_apply ..
  have hqueue : ∀ b, b ≠ node.blockId → (s.insertBlock node).queueOf b = s.queueOf b := by
    intro b hb
    have hset := queueOf_setQueue s node.blockId b (some (s.queueOf node.blockId ++
      [{ node with id := s.inserted, uid := (s.infoFor node.blockId).uid }]))
    rw [if_neg hb] at hset
    exact hset
  -- the information of the block was there before, or it is a new one
  have hfor : s.info node.blockId = some (s.infoFor node.blockId) ∨
      s.info node.blockId = none ∧ s.infoFor node.blockId = BlockInfo.init s.nextUid := by
    unfold ProcManager.infoFor
    cases s.info node.blockId with
    | none => exact Or.inr ⟨rfl, rfl⟩
    | some i => exact Or.inl rfl
  refine ⟨h.robs, ?_, ?_, h.oneCore, ?_⟩
  · intro b i hi hstart
    rw [hinfo] at hi
    split at hi
    case isTrue =>
      obtain rfl := Option.some.inj hi
      rcases hfor with hold | ⟨-, hnew⟩
      · exact h.unstarted node.blockId (s.infoFor node.blockId) hold hstart
      · rw [hnew]
        rfl
    case isFalse => exact h.unstarted b i hi hstart
  · intro c x hx b i hi huid
    rw [hinfo] at hi
    split at hi
    case isTrue =>
      obtain rfl := Option.some.inj hi
      rcases hfor with hold | ⟨-, hnew⟩
      · exact h.recorded c x hx node.blockId (s.infoFor node.blockId) hold huid
      · rw [hnew] at huid
        exact absurd huid (hbooks.slots c x hx).1.ne
    case isFalse => exact h.recorded c x hx b i hi huid
  · intro b hb i hi hstart
    rw [hinfo] at hi
    split at hi
    case isTrue heq =>
      obtain rfl := Option.some.inj hi
      rcases hfor with hold | ⟨-, hnew⟩
      · rw [heq]
        exact hgrows (s.infoFor node.blockId) hold hstart
      · rw [hnew] at hstart
        cases hstart
    case isFalse hne =>
      rw [hqueue b hne] at hb
      exact h.reachable b hb i hi hstart

/-- A thread that is placed on a CPU core is no warp of a block. -/
theorem onItsCore_placeThread (h : OnItsCore k s) (hbooks : BlockBooks k s) {c : ℕ}
    (hc : k.coreType c ≠ .ptx) {node : ThreadNode} {rest : List ThreadNode}
    (hqueue : s.threadQueue = node :: rest) (robs : ℕ) :
    OnItsCore k ((s.takeThread rest).place c node robs) := by
  set m := s.takeThread rest with hm
  obtain ⟨huid, -⟩ := hbooks.threads node (by rw [hqueue]; exact List.mem_cons_self ..)
  have hslots : ∀ c' x, x ∈ ((m.place c node robs).core c').threads →
      x ∈ (s.core c').threads ∨ x.node.uid = 0 := by
    intro c' x hx
    rcases mem_threads_place hx with hold | ⟨-, rfl⟩
    · exact Or.inl hold
    · exact Or.inr huid
  refine ⟨?_, h.unstarted, ?_, ?_, ?_⟩
  · intro c' hc'
    rw [core_place, if_neg (by rintro rfl; exact hc hc')]
    exact h.robs c' hc'
  · intro c' x hx b i hi heq
    rcases hslots c' x hx with hold | hzero
    · exact h.recorded c' x hold b i hi heq
    · have hpos := (hbooks.uid b i hi).1
      omega
  · intro c₁ c₂ x hx y hy heq hpos
    rcases hslots c₁ x hx with hold | hzero
    · rcases hslots c₂ y hy with hold' | hzero'
      · exact h.oneCore c₁ c₂ x hold y hold' heq hpos
      · omega
    · omega
  · intro b hb i hi hstart
    obtain ⟨c', hc', hfetch⟩ := h.reachable b hb i hi hstart
    exact ⟨c', hc', (fetchingBlockId_place m c node robs c').trans hfetch⟩

/-- A core starts a new block when it has none left to continue. -/
theorem onItsCore_startBlock (h : OnItsCore k s) (hbooks : BlockBooks k s) {c b : ℕ}
    {i : BlockInfo} (hi : s.info b = some i) (hstart : i.startToFetch = false)
    (hdone : s.continued c = none) : OnItsCore k (s.startBlock c b) := by
  have hthreads : ∀ c', ((s.startBlock c b).core c').threads = (s.core c').threads ∧
      ((s.startBlock c b).core c').runningThreadNum = (s.core c').runningThreadNum ∧
      ((s.startBlock c b).core c').freeRobs = (s.core c').freeRobs := by
    intro c'
    rw [core_startBlock]
    split
    case isTrue heq => rw [heq]; exact ⟨rfl, rfl, rfl⟩
    case isFalse => exact ⟨rfl, rfl, rfl⟩
  refine ⟨?_, ?_, ?_, ?_, ?_⟩
  · intro c' hc'
    rw [(hthreads c').2.1, (hthreads c').2.2]
    exact h.robs c' hc'
  · intro b' i' hi' hstart'
    rw [info_startBlock hi] at hi'
    split at hi'
    case isTrue =>
      obtain rfl := Option.some.inj hi'
      cases hstart'
    case isFalse => exact h.unstarted b' i' hi' hstart'
  · intro c' x hx b' i' hi' huid
    rw [(hthreads c').1] at hx
    rw [info_startBlock hi] at hi'
    split at hi'
    case isTrue =>
      -- no warp of the block was dispatched before
      obtain rfl := Option.some.inj hi'
      have hrec := h.recorded c' x hx b i hi huid
      rw [h.unstarted b i hi hstart] at hrec
      cases hrec
    case isFalse => exact h.recorded c' x hx b' i' hi' huid
  · intro c₁ c₂ x hx y hy
    rw [(hthreads c₁).1] at hx
    rw [(hthreads c₂).1] at hy
    exact h.oneCore c₁ c₂ x hx y hy
  · intro b' hb' i' hi' hstart'
    rw [info_startBlock hi] at hi'
    split at hi'
    case isTrue heq =>
      obtain rfl := Option.some.inj hi'
      refine ⟨c, rfl, ?_⟩
      rw [core_startBlock, if_pos rfl, heq]
    case isFalse =>
      obtain ⟨c', hc', hfetch⟩ := h.reachable b' hb' i' hi' hstart'
      refine ⟨c', hc', ?_⟩
      rw [core_startBlock]
      split
      case isTrue heq =>
        -- the block that the core was fetching has no warp left
        rw [heq] at hfetch
        have hleft : s.unfinished b' = true := by
          have htotal := hbooks.total b' i' hi'
          have hpos := List.length_pos_of_ne_nil hb'
          have hqueue : (s.startBlock c b).queueOf b' = s.queueOf b' := rfl
          rw [hqueue] at hpos
          unfold ProcManager.unfinished
          rw [hi']
          exact decide_eq_true ⟨hbooks.live b' i' hi', by omega⟩
        unfold ProcManager.continued at hdone
        rw [hfetch] at hdone
        simp [Option.filter, hleft] at hdone
      case isFalse => exact hfetch

/-- A warp is dispatched to the core of its block. -/
theorem onItsCore_placeWarp (h : OnItsCore k s) (hbooks : BlockBooks k s) {b c : ℕ}
    {node : ThreadNode} {rest : List ThreadNode} (hqueue : s.queueOf b = node :: rest) {robs : ℕ}
    (hrobs : (s.core c).freeRobs = robs + 1)
    (hown : ∀ i, s.info b = some i → i.dispatchedCoreId = some c) :
    OnItsCore k ((s.takeWarp b rest).place c node robs) := by
  obtain ⟨-, -, i, hi, huid⟩ := hbooks.queued b node (by rw [hqueue]; exact List.mem_cons_self ..)
  have hinfo := info_placeWarp hi c node rest robs
  have hold : ∀ b' i', ((s.takeWarp b rest).place c node robs).info b' = some i' → ∃ i'',
      s.info b' = some i'' ∧ i'.startToFetch = i''.startToFetch ∧
        i'.dispatchedCoreId = i''.dispatchedCoreId ∧ i'.uid = i''.uid := by
    intro b' i' hi'
    rw [hinfo] at hi'
    split at hi'
    case isTrue heq =>
      obtain rfl := Option.some.inj hi'
      exact ⟨i, heq ▸ hi, rfl, rfl, rfl⟩
    case isFalse => exact ⟨i', hi', rfl, rfl, rfl⟩
  have hslots : ∀ c' x, x ∈ (((s.takeWarp b rest).place c node robs).core c').threads →
      x ∈ (s.core c').threads ∨ c' = c ∧ x.node.uid = i.uid := by
    intro c' x hx
    rw [core_placeWarp] at hx
    rcases mem_threads_place hx with hmem | ⟨heq, rfl⟩
    · exact Or.inl hmem
    · exact Or.inr ⟨heq, huid⟩
  refine ⟨?_, ?_, ?_, ?_, ?_⟩
  · intro c' hc'
    rw [core_placeWarp, core_place]
    split
    case isTrue heq =>
      have hall := h.robs c (heq ▸ hc')
      rw [hrobs] at hall
      rw [heq]
      dsimp only
      omega
    case isFalse => exact h.robs c' hc'
  · intro b' i' hi' hstart'
    obtain ⟨i'', hi'', h₁, h₂, -⟩ := hold b' i' hi'
    rw [h₂]
    exact h.unstarted b' i'' hi'' (h₁ ▸ hstart')
  · intro c' x hx b' i' hi' heq
    obtain ⟨i'', hi'', -, h₂, h₃⟩ := hold b' i' hi'
    rw [h₂]
    rcases hslots c' x hx with hmem | ⟨rfl, hx'⟩
    · exact h.recorded c' x hmem b' i'' hi'' (heq.trans h₃)
    · have hsame : b' = b := hbooks.uid_inj b' b i'' i hi'' hi (h₃ ▸ heq ▸ hx')
      exact hown i'' (hsame ▸ hi'')
  · intro c₁ c₂ x hx y hy heq hpos
    rcases hslots c₁ x hx with hmem | ⟨h₁, hx'⟩
    · rcases hslots c₂ y hy with hmem' | ⟨h₂, hy'⟩
      · exact h.oneCore c₁ c₂ x hmem y hmem' heq hpos
      · have hrec := h.recorded c₁ x hmem b i hi (heq.trans hy')
        rw [hown i hi] at hrec
        rw [h₂, Option.some.inj hrec]
    · rcases hslots c₂ y hy with hmem' | ⟨h₂, -⟩
      · have hrec := h.recorded c₂ y hmem' b i hi (heq.symm.trans hx')
        rw [hown i hi] at hrec
        rw [h₁, Option.some.inj hrec]
      · rw [h₁, h₂]
  · intro b' hb' i' hi' hstart'
    obtain ⟨i'', hi'', h₁, h₂, -⟩ := hold b' i' hi'
    have hqueue' : s.queueOf b' ≠ [] := by
      rw [queueOf_placeWarp] at hb'
      split at hb'
      case isTrue heq => rw [heq, hqueue]; exact List.cons_ne_nil _ _
      case isFalse => exact hb'
    obtain ⟨c', hc', hfetch⟩ := h.reachable b' hqueue' i'' hi'' (h₁ ▸ hstart')
    refine ⟨c', h₂ ▸ hc', ?_⟩
    rw [core_placeWarp, fetchingBlockId_place]
    exact hfetch

/-- The end of a thread gives its reorder buffer back. -/
theorem onItsCore_finishThread (h : OnItsCore k s) {c tid : ℕ} {node : ThreadNode}
    (hslot : (s.core c).threads[tid]? = some ⟨node, false⟩)
    (hrunning : 0 < (s.core c).runningThreadNum) :
    OnItsCore k (s.finishThread k c tid node) := by
  have hmem : (⟨node, false⟩ : ThreadSlot) ∈ (s.core c).threads := List.mem_of_getElem? hslot
  have hslots : ∀ c' x, x ∈ ((s.finishThread k c tid node).core c').threads →
      ∃ y ∈ (s.core c').threads, x.node = y.node := by
    intro c' x hx
    rcases mem_threads_finish hx with hold | ⟨hc', rfl⟩
    · exact ⟨x, hold, rfl⟩
    · exact ⟨⟨node, false⟩, hc' ▸ hmem, rfl⟩
  refine ⟨?_, h.unstarted, ?_, ?_, ?_⟩
  · intro c' hc'
    have hall := h.robs c' hc'
    rw [core_finishThread]
    split
    case isTrue heq =>
      rw [heq] at hall hc' ⊢
      simp only [SchedCore.finish, hc', CoreType.hasGpuRob, decide_true, Bool.true_or, if_true]
      omega
    case isFalse => exact hall
  · intro c' x hx b i hi heq
    obtain ⟨y, hy, hxy⟩ := hslots c' x hx
    exact h.recorded c' y hy b i hi (hxy ▸ heq)
  · intro c₁ c₂ x hx y hy heq hpos
    obtain ⟨x', hx', hxx⟩ := hslots c₁ x hx
    obtain ⟨y', hy', hyy⟩ := hslots c₂ y hy
    exact h.oneCore c₁ c₂ x' hx' y' hy' (by rw [← hxx, ← hyy, heq]) (hxx ▸ hpos)
  · intro b hb i hi hstart
    obtain ⟨c', hc', hfetch⟩ := h.reachable b hb i hi hstart
    refine ⟨c', hc', ?_⟩
    rw [core_finishThread]
    split
    case isTrue heq => exact heq ▸ hfetch
    case isFalse => exact hfetch

/-- The end of a warp leaves the other warps where they are. -/
theorem onItsCore_retireWarp (h : OnItsCore k s) (c : ℕ) (node : ThreadNode) :
    OnItsCore k (s.retireWarp c node) := by
  unfold ProcManager.retireWarp
  split
  case h_1 => exact h
  case h_2 i hi =>
    split
    case isFalse =>
      -- the information of the block changes in one counter
      have hold : ∀ b' i', Function.update s.info node.blockId
          (some { i with retiredThreadNum := i.retiredThreadNum + 1 }) b' = some i' → ∃ i'',
          s.info b' = some i'' ∧ i'.startToFetch = i''.startToFetch ∧
            i'.dispatchedCoreId = i''.dispatchedCoreId ∧ i'.uid = i''.uid := by
        intro b' i' hi'
        rw [Function.update_apply] at hi'
        split at hi'
        case isTrue heq =>
          obtain rfl := Option.some.inj hi'
          exact ⟨i, heq ▸ hi, rfl, rfl, rfl⟩
        case isFalse => exact ⟨i', hi', rfl, rfl, rfl⟩
      refine ⟨h.robs, ?_, ?_, h.oneCore, ?_⟩
      · intro b' i' hi' hstart'
        obtain ⟨i'', hi'', h₁, h₂, -⟩ := hold b' i' hi'
        rw [h₂]
        exact h.unstarted b' i'' hi'' (h₁ ▸ hstart')
      · intro c' x hx b' i' hi' heq
        obtain ⟨i'', hi'', -, h₂, h₃⟩ := hold b' i' hi'
        rw [h₂]
        exact h.recorded c' x hx b' i'' hi'' (heq.trans h₃)
      · intro b' hb' i' hi' hstart'
        obtain ⟨i'', hi'', h₁, h₂, -⟩ := hold b' i' hi'
        obtain ⟨c', hc', hfetch⟩ := h.reachable b' hb' i'' hi'' (h₁ ▸ hstart')
        exact ⟨c', h₂ ▸ hc', hfetch⟩
    case isTrue =>
      have hcore := core_updateBlockNum s.core c ((s.core c).runningBlockNum - 1)
      have hthreads := fun c' => congrArg SchedCore.threads (hcore c')
      have hold : ∀ b' i', Function.update s.info node.blockId none b' = some i' →
          b' ≠ node.blockId ∧ s.info b' = some i' := by
        intro b' i' hi'
        rw [Function.update_apply] at hi'
        split at hi'
        case isTrue => cases hi'
        case isFalse hne => exact ⟨hne, hi'⟩
      refine ⟨?_, ?_, ?_, ?_, ?_⟩
      · intro c' hc'
        refine Eq.trans ?_ (h.robs c' hc')
        exact congrArg (fun core => core.freeRobs + core.runningThreadNum) (hcore c')
      · intro b' i' hi'
        exact h.unstarted b' i' (hold b' i' hi').2
      · intro c' x hx b' i' hi'
        exact h.recorded c' x (hthreads c' ▸ hx) b' i' (hold b' i' hi').2
      · intro c₁ c₂ x hx y hy
        exact h.oneCore c₁ c₂ x (hthreads c₁ ▸ hx) y (hthreads c₂ ▸ hy)
      · intro b' hb' i' hi' hstart'
        obtain ⟨hne, hi'⟩ := hold b' i' hi'
        have hqueue := queueOf_setQueue s node.blockId b' none
        rw [if_neg hne] at hqueue
        have hb'' : s.queueOf b' ≠ [] := hqueue ▸ hb'
        obtain ⟨c', hc', hfetch⟩ := h.reachable b' hb'' i' hi' hstart'
        exact ⟨c', hc', (congrArg SchedCore.fetchingBlockId (hcore c')).trans hfetch⟩

end MacSim.Analysis
