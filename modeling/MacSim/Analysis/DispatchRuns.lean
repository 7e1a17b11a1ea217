import MacSim.Analysis.BlockDispatch
import MacSim.Computation.Partial

/-!
# Runs of the process manager

Every call of the process manager that returns keeps its books as long as a GPU core continues
only blocks of its own, and a block grows only while its core fetches it.
-/

set_option autoImplicit false

namespace MacSim.Analysis

open MacSim.Model
open MacSim.Computation

variable {k : ProcKnobs} {s : ProcManager}

/-! ## The warps that wait can be started -/

/-- A block with waiting warps is in the list of its process and has traces to schedule. -/
structure Startable (s : ProcManager) : Prop where
  listed : ∀ b, ∀ n ∈ s.queueOf b, s.blockList n.process b = true
  traced : ∀ b, s.queueOf b ≠ [] → ∀ i, s.info b = some i → i.traceExist = true

/-- At first no warp waits. -/
theorem startable_init (k : ProcKnobs) : Startable (ProcManager.init k) where
  listed := by
    intro b n hn
    cases hn
  traced := by
    intro b hb
    exact absurd rfl hb

/-- A block that is listed stays listed. -/
theorem startable_list (h : Startable s) (process b : ℕ) :
    Startable { s with
      blockList := Function.update s.blockList process
        (Function.update (s.blockList process) b true) } where
  listed := by
    intro b' n hn
    have hold : s.blockList n.process b' = true := h.listed b' n hn
    dsimp only
    rw [Function.update_apply]
    split
    case isTrue heq =>
      rw [Function.update_apply]
      split
      case isTrue => rfl
      case isFalse => exact heq ▸ hold
    case isFalse => exact hold
  traced := h.traced

/-- A warp that is listed can be started. -/
theorem startable_insertBlock (h : Startable s) {node : ThreadNode}
    (hlisted : s.blockList node.process node.blockId = true) : Startable (s.insertBlock node) := by
  have hqueue : ∀ b, (s.insertBlock node).queueOf b = if b = node.blockId then
      s.queueOf node.blockId ++
        [{ node with id := s.inserted, uid := (s.infoFor node.blockId).uid }]
      else s.queueOf b := by
    intro b
    exact queueOf_setQueue s node.blockId b (some (s.queueOf node.blockId ++
      [{ node with id := s.inserted, uid := (s.infoFor node.blockId).uid }]))
  constructor
  · intro b n hn
    rw [hqueue] at hn
    split at hn
    case isTrue heq =>
      rcases List.mem_append.mp hn with hold | hnew
      · exact heq ▸ h.listed _ n hold
      · rw [List.mem_singleton.mp hnew, heq]
        exact hlisted
    case isFalse => exact h.listed b n hn
  · intro b hb i hi
    have hinfo : (s.insertBlock node).info b = if b = node.blockId then
        some { s.infoFor node.blockId with
          totalThreadNum := (s.infoFor node.blockId).totalThreadNum + 1, traceExist := true }
        else s.info b := Function.update_apply ..
    rw [hinfo] at hi
    split at hi
    case isTrue =>
      obtain rfl := Option.some.inj hi
      rfl
    case isFalse hne =>
      rw [hqueue, if_neg hne] at hb
      exact h.traced b hb i hi

/-- The warps that wait can still be started after a block starts. -/
theorem startable_startBlock (h : Startable s) {c b : ℕ} {i : BlockInfo}
    (hi : s.info b = some i) : Startable (s.startBlock c b) where
  listed := h.listed
  traced := by
    intro b' hb' i' hi'
    rw [info_startBlock hi] at hi'
    split at hi'
    case isTrue heq =>
      obtain rfl := Option.some.inj hi'
      exact h.traced b (heq ▸ hb') i hi
    case isFalse => exact h.traced b' hb' i' hi'

/-- The warps that wait can still be started after one is placed. -/
theorem startable_placeWarp (h : Startable s) {b c : ℕ} {node : ThreadNode}
    {rest : List ThreadNode} (hqueue : s.queueOf b = node :: rest) {i : BlockInfo}
    (hi : s.info b = some i) (robs : ℕ) : Startable ((s.takeWarp b rest).place c node robs) where
  listed := by
    intro b' n hn
    rw [queueOf_placeWarp] at hn
    split at hn
    case isTrue heq =>
      rw [heq]
      exact h.listed b n (by rw [hqueue]; exact List.mem_cons_of_mem _ hn)
    case isFalse => exact h.listed b' n hn
  traced := by
    intro b' hb' i' hi'
    rw [info_placeWarp hi] at hi'
    split at hi'
    case isTrue =>
      obtain rfl := Option.some.inj hi'
      exact h.traced b (by rw [hqueue]; exact List.cons_ne_nil _ _) i hi
    case isFalse hne =>
      rw [queueOf_placeWarp, if_neg hne] at hb'
      exact h.traced b' hb' i' hi'

/-- The warps that wait can still be started after one ends. -/
theorem startable_retireWarp (h : Startable s) (c : ℕ) (node : ThreadNode) :
    Startable (s.retireWarp c node) := by
  unfold ProcManager.retireWarp
  split
  case h_1 => exact h
  case h_2 i hi =>
    split
    case isFalse =>
      refine ⟨h.listed, fun b' hb' i' hi' => ?_⟩
      change Function.update s.info node.blockId _ b' = some i' at hi'
      rw [Function.update_apply] at hi'
      split at hi'
      case isTrue heq =>
        obtain rfl := Option.some.inj hi'
        exact h.traced node.blockId (heq ▸ hb') i hi
      case isFalse => exact h.traced b' hb' i' hi'
    case isTrue =>
      refine ⟨fun b' n hn => ?_, fun b' hb' i' hi' => ?_⟩
      · have hqueue := queueOf_setQueue s node.blockId b' none
        have hn' : n ∈ (s.setQueue node.blockId none).queueOf b' := hn
        rw [hqueue] at hn'
        split at hn'
        case isTrue => cases hn'
        case isFalse hne =>
          have hold := h.listed b' n hn'
          dsimp only
          rw [Function.update_apply]
          split
          case isTrue heq => rw [Function.update_of_ne hne, ← heq, hold]
          case isFalse => exact hold
      · change Function.update s.info node.blockId none b' = some i' at hi'
        rw [Function.update_apply] at hi'
        split at hi'
        case isTrue => cases hi'
        case isFalse hne =>
          have hqueue := queueOf_setQueue s node.blockId b' none
          rw [if_neg hne] at hqueue
          exact h.traced b' (hqueue ▸ hb') i' hi'

/-! ## The turn of a core -/

/-- What holds of the manager in every state that its calls reach. -/
structure Managed (k : ProcKnobs) (s : ProcManager) : Prop where
  tally : Tally k s
  books : BlockBooks k s
  owners : Owners k s
  placed : OnItsCore k s
  startable : Startable s

/-- The manager is well kept at first. -/
theorem managed_init (k : ProcKnobs) : Managed k (ProcManager.init k) :=
  ⟨tally_init k, blockBooks_init k, owners_init k, onItsCore_init k, startable_init k⟩

/-- The next core is a core of the type that is asked for. -/
theorem getNextCore_spec {t : CoreType} {c : ℕ} (hc : s.getNextCore k t = some c) :
    c < k.numSimCores ∧ k.coreType c = t := by
  have havailable : ∀ c, s.available k t c = true → k.coreType c = t := by
    intro c' hc'
    exact (of_decide_eq_true hc').2.2
  unfold ProcManager.getNextCore at hc
  split at hc
  case isTrue =>
    unfold ProcManager.getNextAvailableCore at hc
    exact ⟨List.mem_range.mp (List.mem_of_find?_eq_some hc),
      havailable c (List.find?_some hc)⟩
  case isFalse =>
    -- the best core so far is one of those that were looked at
    have hbest : ∀ l : List ℕ, ∀ best : Option ℕ, ∀ c, l.foldl (fun best c =>
        if s.available k t c = true ∧ (∀ b ∈ best,
          (s.core c).runningThreadNum < (s.core b).runningThreadNum) then some c else best) best =
          some c → best = some c ∨ c ∈ l ∧ s.available k t c = true := by
      intro l
      induction l with
      | nil => exact fun best c h => Or.inl h
      | cons a l ih =>
        intro best c h
        rw [List.foldl_cons] at h
        rcases ih _ c h with hnow | ⟨hmem, hav⟩
        · split at hnow
          case isTrue hav =>
            obtain rfl := Option.some.inj hnow
            exact Or.inr ⟨List.mem_cons_self .., hav.1⟩
          case isFalse => exact Or.inl hnow
        · exact Or.inr ⟨List.mem_cons_of_mem _ hmem, hav⟩
    unfold ProcManager.getNextLowOccupancyCore at hc
    rcases hbest _ none c hc with hnone | ⟨hmem, hav⟩
    · cases hnone
    · exact ⟨List.mem_range.mp hmem, havailable c hav⟩

/-- What a dispatch does; a ptx core had a reorder buffer for the thread. -/
theorem dispatch_spec (s : ProcManager) (c : ℕ) (node : ThreadNode) :
    Ensures (s.dispatch k c node) fun s' => ∃ robs, s' = s.place c node robs ∧
      (k.coreType c = .ptx → (s.core c).freeRobs = robs + 1) := by
  intro s' hs'
  obtain ⟨robs, hrobs, rfl⟩ := Option.map_eq_some_iff.mp hs'
  refine ⟨robs, rfl, fun hptx => ?_⟩
  unfold ProcManager.reserveRob at hrobs
  rw [if_pos (by rw [hptx]; rfl)] at hrobs
  split at hrobs
  case isTrue => cases hrobs
  case isFalse hfree =>
    obtain rfl := Option.some.inj hrobs
    omega

/-- The cores of the other types take threads, no warps. -/
theorem managed_scheduleThreads {t : CoreType} (ht : t ≠ .ptx) (n : ℕ) (h : Managed k s) :
    Ensures (ProcManager.scheduleThreads k t n s) (Managed k) := by
  induction n generalizing s with
  | zero => exact .of_some h
  | succ n ih =>
    unfold ProcManager.scheduleThreads
    split
    case h_1 => exact .of_some h
    case h_2 c hc =>
      obtain ⟨hlt, htype⟩ := getNextCore_spec hc
      have hother : k.coreType c ≠ .ptx := by rwa [htype]
      split
      case h_1 => exact .of_some h
      case h_2 node rest hqueue =>
        split
        case isTrue => exact .of_none
        case isFalse =>
          refine (dispatch_spec (s.takeThread rest) c node).bind fun s' hs' => ih ?_
          obtain ⟨robs, rfl, -⟩ := hs'
          have howners : Owners k (s.takeThread rest) :=
            ⟨h.owners.mapped, h.owners.mapped_inj, h.owners.listed, h.owners.queued,
              h.owners.fetching, h.owners.appl, h.owners.blocks⟩
          exact ⟨tally_placeThread h.tally hlt hqueue robs,
            blockBooks_placeThread h.books hlt hqueue robs,
            owners_place howners robs fun hptx => absurd hptx hother,
            onItsCore_placeThread h.placed h.books hother hqueue robs,
            ⟨h.startable.listed, h.startable.traced⟩⟩

/-- Placing threads on the CPU cores keeps the manager well. -/
theorem managed_scheduleCpus (h : Managed k s) : Ensures (s.scheduleCpus k) (Managed k) := by
  refine Ensures.foldlM _ s h fun s hs t ht => managed_scheduleThreads ?_ _ hs
  rintro rfl
  exact absurd ht (by decide)

/-- A core continues a block only where it was dispatched. -/
def OwnBlock (s : ProcManager) (c : ℕ) : Prop :=
  ∀ b ∈ s.continued c, ∀ i ∈ s.info b, i.dispatchedCoreId = some c

instance (s : ProcManager) (c : ℕ) : Decidable (OwnBlock s c) := by
  unfold OwnBlock
  infer_instance

/-- The walk over the blocks finds one that was not fetched yet. -/
theorem newBlock_spec (c : ℕ) (initial : Bool) (blocks : List ℕ) :
    Ensures (s.newBlock k c initial blocks) fun found => ∀ b ∈ found, b ∈ blocks ∧
      ∃ i, s.info b = some i ∧ i.startToFetch = false := by
  induction blocks with
  | nil =>
    refine .of_some fun b hb => ?_
    cases hb
  | cons b blocks ih =>
    have hrest := ih.mono fun found hfound b' hb' =>
      (⟨List.mem_cons_of_mem b (hfound b' hb').1, (hfound b' hb').2⟩ :
        b' ∈ b :: blocks ∧ ∃ i, s.info b' = some i ∧ i.startToFetch = false)
    unfold ProcManager.newBlock
    refine Ensures.trivial.bind fun here _ => ?_
    split
    case isFalse => exact hrest
    case isTrue =>
      intro found hfound
      obtain ⟨isNew, hnew, hfound⟩ := Option.bind_eq_some_iff.mp hfound
      split at hfound
      case isFalse => exact hrest found hfound
      case isTrue htrue =>
        obtain rfl := Option.some.inj hfound
        obtain ⟨i, hi, hfresh⟩ := Option.map_eq_some_iff.mp hnew
        rw [htrue, Bool.and_eq_true, Bool.not_eq_true'] at hfresh
        intro b' hb'
        obtain rfl := Option.some.inj hb'
        exact ⟨List.mem_cons_self, i, hi, hfresh.1⟩

/-- What the choice of a block does: it finds none, or it continues a block of the core, or it
starts a new one. -/
theorem simScheduleThreadBlock_spec (h : Managed k s) {c : ℕ} (initial : Bool)
    (hown : OwnBlock s c) :
    Ensures (s.simScheduleThreadBlock k c initial) fun x => Managed k x.2 ∧
      ∀ b ∈ x.1, (x.2.core c).fetchingBlockId = some b ∧
        ∀ i, x.2.info b = some i → i.dispatchedCoreId = some c := by
  unfold ProcManager.simScheduleThreadBlock
  split
  case h_1 b hb =>
    have hfetch : (s.core c).fetchingBlockId = some b := (Option.filter_eq_some_iff.mp hb).1
    refine .of_some ⟨h, fun b' hb' => ?_⟩
    obtain rfl := Option.some.inj hb'
    exact ⟨hfetch, hown b hb⟩
  case h_2 hnone =>
    have hstop : Managed k s ∧ ∀ b ∈ (none : Option ℕ), (s.core c).fetchingBlockId = some b ∧
        ∀ i, s.info b = some i → i.dispatchedCoreId = some c := by
      refine ⟨h, fun b hb => ?_⟩
      cases hb
    split
    case isTrue => exact .of_some hstop
    case isFalse hroom =>
      refine (newBlock_spec c initial _).map fun found hfound => ?_
      cases found with
      | none => exact hstop
      | some b =>
        obtain ⟨hmem, i, hi, hstart⟩ := hfound b rfl
        have hlisted := (List.mem_filter.mp hmem).2
        refine ⟨⟨tally_startBlock h.tally c b, blockBooks_startBlock h.books hi c,
          owners_startBlock h.owners hlisted hroom,
          onItsCore_startBlock h.placed h.books hi hstart hnone,
          startable_startBlock h.startable hi⟩, fun b' hb' => ?_⟩
        obtain rfl := Option.some.inj hb'
        refine ⟨by rw [core_startBlock, if_pos rfl], fun i' hi' => ?_⟩
        rw [info_startBlock hi, if_pos rfl] at hi'
        obtain rfl := Option.some.inj hi'
        rfl

/-- A warp is placed on a core of its own process. -/
theorem owners_placeWarp (h : Owners k s) {b c : ℕ} {node : ThreadNode}
    {rest : List ThreadNode} (hqueue : s.queueOf b = node :: rest) (robs : ℕ)
    (hnode : k.coreType c = .ptx → node.process = (s.core c).applId) :
    Owners k ((s.takeWarp b rest).place c node robs) := by
  have htaken : Owners k (s.takeWarp b rest) := by
    refine ⟨h.mapped, h.mapped_inj, h.listed, fun b' n hn => ?_, h.fetching, h.appl, h.blocks⟩
    have hset := queueOf_setQueue s b b' (some rest)
    have hn' : n ∈ (s.setQueue b (some rest)).queueOf b' := hn
    rw [hset] at hn'
    split at hn'
    case isTrue heq =>
      rw [heq]
      exact h.queued b n (by rw [hqueue]; exact List.mem_cons_of_mem _ hn')
    case isFalse => exact h.queued b' n hn'
  exact owners_place htaken robs hnode

/-- A warp of the block that a core is fetching goes to the core, which may go on with it. -/
theorem managed_dispatchWarp {c : ℕ} (hc : c < k.numSimCores) (hptx : k.coreType c = .ptx)
    {b : ℕ} (h : Managed k s) (hfetch : (s.core c).fetchingBlockId = some b)
    (hown : ∀ i, s.info b = some i → i.dispatchedCoreId = some c) {node : ThreadNode}
    {rest : List ThreadNode} (hqueue : s.queueOf b = node :: rest) :
    Ensures (s.dispatchWarp k c b node rest) fun s' => Managed k s' ∧ OwnBlock s' c := by
  have hmem : node ∈ s.queueOf b := by rw [hqueue]; exact List.mem_cons_self ..
  obtain ⟨-, -, i, hi, -⟩ := h.books.queued b node hmem
  have hprocess : node.process = (s.core c).applId := by
    obtain ⟨key, hkey⟩ := h.owners.queued b node hmem
    obtain ⟨key', hkey'⟩ := h.owners.fetching c hptx b hfetch
    exact h.owners.mapped_inj _ key _ key' b hkey hkey'
  unfold ProcManager.dispatchWarp
  split
  case isTrue => exact .of_none
  case isFalse =>
    refine (dispatch_spec (s.takeWarp b rest) c node).mono fun s' hs' => ?_
    obtain ⟨robs, rfl, hrobs⟩ := hs'
    refine ⟨⟨tally_placeWarp h.tally hc hqueue robs, blockBooks_placeWarp h.books hc hqueue robs,
      owners_placeWarp h.owners hqueue robs fun _ => hprocess,
      onItsCore_placeWarp h.placed h.books hqueue (hrobs hptx) hown,
      startable_placeWarp h.startable hqueue hi robs⟩, fun b' hb' i' hi' => ?_⟩
    have hcore := core_place (s.takeWarp b rest) c node robs c
    rw [if_pos rfl] at hcore
    have hsame := (Option.filter_eq_some_iff.mp hb').1
    rw [hcore] at hsame
    obtain rfl := Option.some.inj (hfetch.symm.trans hsame)
    have hinfo := info_placeWarp hi c node rest robs b
    rw [if_pos rfl] at hinfo
    obtain rfl := Option.some.inj (hinfo.symm.trans hi')
    exact hown i hi

/-- The loop over the warps of a core: each turn dispatches a warp of the block that the core is
fetching. -/
theorem managed_scheduleWarps {c : ℕ} (hc : c < k.numSimCores) (hptx : k.coreType c = .ptx)
    (initial : Bool) (n : ℕ) {b : ℕ} (h : Managed k s)
    (hfetch : (s.core c).fetchingBlockId = some b)
    (hown : ∀ i, s.info b = some i → i.dispatchedCoreId = some c) :
    Ensures (ProcManager.scheduleWarps k c initial n b s) (Managed k) := by
  induction n generalizing b s with
  | zero => exact .of_some h
  | succ n ih =>
    unfold ProcManager.scheduleWarps
    split
    case h_1 => exact .of_some h
    case h_2 node rest hqueue =>
      refine (managed_dispatchWarp hc hptx h hfetch hown hqueue).bind fun s' hs' => ?_
      split
      case isTrue => exact .of_some hs'.1
      case isFalse =>
        refine (simScheduleThreadBlock_spec hs'.1 initial hs'.2).bind fun x hx => ?_
        split
        case h_1 => exact .of_some hx.1
        case h_2 b' t => exact ih hx.1 (hx.2 b' rfl).1 (hx.2 b' rfl).2

/-- The turn of a GPU core keeps the manager well. -/
theorem managed_ptxTurn {c : ℕ} (hc : c < k.numSimCores) (hptx : k.coreType c = .ptx)
    (initial : Bool) (h : Managed k s) (hown : OwnBlock s c) :
    Ensures (s.ptxTurn k initial c) (Managed k) := by
  refine (simScheduleThreadBlock_spec h initial hown).bind fun x hx => ?_
  split
  case h_1 => exact .of_some hx.1
  case h_2 b t => exact managed_scheduleWarps hc hptx initial _ hx.1 (hx.2 b rfl).1 (hx.2 b rfl).2

/-- The GPU cores are served in turn, each with blocks of its own. -/
def AllServed (k : ProcKnobs) (initial : Bool) (s : ProcManager) : Prop :=
  Ensures (s.scheduleCpus k) fun s =>
    EachStep (ProcManager.ptxTurn k initial) OwnBlock s (ProcManager.ptxCores k)

instance (k : ProcKnobs) (initial : Bool) (s : ProcManager) :
    Decidable (AllServed k initial s) := by
  unfold AllServed
  infer_instance

/-- The schedule of all threads keeps the manager well when each core has its own block. -/
theorem managed_simThreadSchedule (initial : Bool) (h : Managed k s)
    (hserved : AllServed k initial s) :
    Ensures (s.simThreadSchedule k initial) (Managed k) := by
  intro t ht
  obtain ⟨m, hm, ht⟩ := Option.bind_eq_some_iff.mp ht
  refine EachStep.invariant (fun s c hc s' hs hown hturn => ?_) (managed_scheduleCpus h m hm)
    (hserved m hm) ht
  obtain ⟨hmem, htype⟩ := List.mem_filter.mp hc
  exact managed_ptxTurn (List.mem_range.mp hmem) (of_decide_eq_true htype) initial hs hown s' hturn

/-! ## Scheduling takes no thread off a core -/

/-- Threads are only added to the cores. -/
def KeepsThreads (s s' : ProcManager) : Prop := ∀ c, (s.core c).threads <+: (s'.core c).threads

/-- No thread has to go. -/
theorem KeepsThreads.refl (s : ProcManager) : KeepsThreads s s := fun _ => List.prefix_rfl

/-- One step may follow another. -/
theorem KeepsThreads.trans {s m t : ProcManager} (h : KeepsThreads s m) (h' : KeepsThreads m t) :
    KeepsThreads s t := fun c => (h c).trans (h' c)

/-- A dispatch takes no thread away. -/
theorem keepsThreads_dispatch {m : ProcManager} (hcore : m.core = s.core) (c : ℕ)
    (node : ThreadNode) : Ensures (m.dispatch k c node) (KeepsThreads s) := by
  refine (dispatch_spec m c node).mono fun s' hs' => ?_
  obtain ⟨robs, rfl, -⟩ := hs'
  intro c'
  rw [core_place, hcore]
  split
  case isTrue heq =>
    rw [heq]
    exact List.prefix_append _ _
  case isFalse => exact List.prefix_rfl

/-- Placing waiting threads takes no thread away. -/
theorem keepsThreads_scheduleThreads (t : CoreType) (n : ℕ) (s : ProcManager) :
    Ensures (ProcManager.scheduleThreads k t n s) (KeepsThreads s) := by
  induction n generalizing s with
  | zero => exact .of_some (.refl s)
  | succ n ih =>
    unfold ProcManager.scheduleThreads
    split
    case h_1 => exact .of_some (.refl s)
    case h_2 c hc =>
      split
      case h_1 => exact .of_some (.refl s)
      case h_2 node rest hqueue =>
        split
        case isTrue => exact .of_none
        case isFalse =>
          have hdispatch : Ensures ((s.takeThread rest).dispatch k c node) (KeepsThreads s) :=
            keepsThreads_dispatch rfl c node
          exact hdispatch.bind fun m hm => (ih m).mono fun _ ht => hm.trans ht

/-- The choice of a block takes no thread away. -/
theorem keepsThreads_simScheduleThreadBlock (c : ℕ) (initial : Bool) (s : ProcManager) :
    Ensures (s.simScheduleThreadBlock k c initial) fun x => KeepsThreads s x.2 := by
  unfold ProcManager.simScheduleThreadBlock
  split
  case h_1 => exact .of_some (.refl s)
  case h_2 =>
    split
    case isTrue => exact .of_some (.refl s)
    case isFalse =>
      refine Ensures.trivial.map fun found _ => ?_
      cases found with
      | none => exact .refl s
      | some b =>
        intro c'
        dsimp only
        rw [core_startBlock]
        split
        case isTrue heq => rw [heq]
        case isFalse => exact List.prefix_rfl

/-- Placing the warps of a block takes no thread away. -/
theorem keepsThreads_scheduleWarps (c : ℕ) (initial : Bool) (n b : ℕ) (s : ProcManager) :
    Ensures (ProcManager.scheduleWarps k c initial n b s) (KeepsThreads s) := by
  induction n generalizing b s with
  | zero => exact .of_some (.refl s)
  | succ n ih =>
    unfold ProcManager.scheduleWarps
    split
    case h_1 => exact .of_some (.refl s)
    case h_2 node rest hqueue =>
      have hdispatch : Ensures (s.dispatchWarp k c b node rest) (KeepsThreads s) := by
        unfold ProcManager.dispatchWarp
        split
        case isTrue => exact .of_none
        case isFalse => exact keepsThreads_dispatch rfl c node
      refine hdispatch.bind fun m hm => ?_
      split
      case isTrue => exact .of_some hm
      case isFalse =>
        refine (keepsThreads_simScheduleThreadBlock c initial m).bind fun x hx => ?_
        split
        case h_1 => exact .of_some (hm.trans hx)
        case h_2 b' m' => exact (ih b' m').mono fun _ ht => (hm.trans hx).trans ht

/-- The schedule of all threads takes no thread away. -/
theorem keepsThreads_simThreadSchedule (initial : Bool) (s : ProcManager) :
    Ensures (s.simThreadSchedule k initial) (KeepsThreads s) := by
  have hcpus : Ensures (s.scheduleCpus k) (KeepsThreads s) :=
    Ensures.foldlM _ s (.refl s) fun m hm t _ =>
      (keepsThreads_scheduleThreads t _ m).mono fun _ ht => hm.trans ht
  refine hcpus.bind fun m hm => Ensures.foldlM _ m hm fun m' hm' c _ => ?_
  refine (keepsThreads_simScheduleThreadBlock c initial m').bind fun x hx => ?_
  split
  case h_1 => exact .of_some (hm'.trans hx)
  case h_2 b t =>
    exact (keepsThreads_scheduleWarps c initial _ b t).mono fun _ ht => (hm'.trans hx).trans ht

/-! ## The calls -/

/-- A new block keeps the manager well. -/
theorem managed_mapBlock (h : Managed k s) (process key : ℕ) :
    Managed k (s.mapBlock process key).2 := by
  refine ⟨tally_mapBlock h.tally process key, ?_, owners_mapBlock h.owners process key, ?_, ?_⟩ <;>
    unfold ProcManager.mapBlock <;> split
  · exact h.books
  · exact ⟨h.books.total, h.books.dispatched, h.books.retired, h.books.live, h.books.uid,
      h.books.uid_inj, h.books.threads, h.books.queued, h.books.slots, h.books.nextUid⟩
  · exact h.placed
  · exact ⟨h.placed.robs, h.placed.unstarted, h.placed.recorded, h.placed.oneCore,
      h.placed.reachable⟩
  · exact h.startable
  · exact ⟨h.startable.listed, h.startable.traced⟩

/-- A thread becomes ready; a block that was started grows only while its core fetches it. -/
theorem managed_createThreadNode (process tid threadId : ℕ) (main : Bool) (h : Managed k s)
    (hgrows : k.acc process = true → GrowsWhileFetched s
      (s.mapBlock process (threadId >>> 16 + k.kernelBlockStartCount process)).1) :
    Managed k (s.createThreadNode k process tid threadId main) := by
  set key := threadId >>> 16 + k.kernelBlockStartCount process with hkey
  have hmapped := mapBlock_mapper s process key
  have hmanaged := managed_mapBlock h process key
  have hsame : ∀ b, GrowsWhileFetched s b → GrowsWhileFetched (s.mapBlock process key).2 b := by
    intro b hb
    unfold ProcManager.mapBlock
    split
    · exact hb
    · exact hb
  set r := s.mapBlock process key with hr
  have hbooks := hmanaged.books
  have hplaced := hmanaged.placed
  have hlist : Managed k { r.2 with
      blockList := Function.update r.2.blockList process
        (Function.update (r.2.blockList process) r.1 true) } :=
    ⟨⟨hmanaged.tally.waiting, hmanaged.tally.placed, hmanaged.tally.noQueue, hmanaged.tally.noCore,
        hmanaged.tally.running⟩,
      ⟨hbooks.total, hbooks.dispatched, hbooks.retired, hbooks.live, hbooks.uid, hbooks.uid_inj,
        hbooks.threads, hbooks.queued, hbooks.slots, hbooks.nextUid⟩,
      owners_list hmanaged.owners hmapped,
      ⟨hplaced.robs, hplaced.unstarted, hplaced.recorded, hplaced.oneCore, hplaced.reachable⟩,
      startable_list hmanaged.startable process r.1⟩
  unfold ProcManager.createThreadNode
  rw [← hkey, ← hr]
  dsimp only
  split
  case isTrue hacc =>
    have hlt : r.1 < r.2.mapperSize := hmanaged.owners.mapped _ _ _ hmapped
    have hlisted : Function.update r.2.blockList process
        (Function.update (r.2.blockList process) r.1 true) process r.1 = true := by
      rw [Function.update_self, Function.update_self]
    exact ⟨tally_insertBlock hlist.tally hlt, blockBooks_insertBlock hlist.books hacc,
      owners_insertBlock hlist.owners hmapped,
      onItsCore_insertBlock hlist.placed hlist.books (hsame _ (hgrows hacc)),
      startable_insertBlock hlist.startable hlisted⟩
  case isFalse hnot =>
    have hinsert := hlist.owners
    exact ⟨tally_insertThread hlist.tally _,
      blockBooks_insertThread hlist.books (Bool.not_eq_true _ ▸ hnot),
      ⟨hinsert.mapped, hinsert.mapped_inj, hinsert.listed, hinsert.queued, hinsert.fetching,
        hinsert.appl, hinsert.blocks⟩,
      ⟨hlist.placed.robs, hlist.placed.unstarted, hlist.placed.recorded, hlist.placed.oneCore,
        hlist.placed.reachable⟩,
      ⟨hlist.startable.listed, hlist.startable.traced⟩⟩

/-- A thread ends; the block of its last warp has none waiting. -/
theorem managed_threadEnded (h : Managed k s) {c tid : ℕ} {node : ThreadNode}
    (hslot : (s.core c).threads[tid]? = some ⟨node, false⟩) :
    Managed k (threadEnded k s c tid node) := by
  obtain ⟨hbooks, hempty⟩ := blockBooks_threadEnded h.tally h.books hslot
  have htally := tally_finishThread h.tally hslot
  have howners := owners_finishThread h.owners c tid node
  have hrunning : 0 < (s.core c).runningThreadNum := by
    rw [h.tally.running c]
    exact List.countP_pos_iff.mpr ⟨_, List.mem_of_getElem? hslot, rfl⟩
  have hplaced := onItsCore_finishThread h.placed hslot hrunning
  have hstartable : Startable (s.finishThread k c tid node) :=
    ⟨h.startable.listed, h.startable.traced⟩
  unfold threadEnded at hbooks ⊢
  split at hbooks
  case isTrue hacc =>
    rw [if_pos hacc]
    exact ⟨tally_retireWarp htally c node fun i hi => hempty i hi hacc, hbooks,
      owners_retireWarp howners c node, onItsCore_retireWarp hplaced c node,
      startable_retireWarp hstartable c node⟩
  case isFalse hnot =>
    rw [if_neg hnot]
    exact ⟨htally, hbooks, howners, hplaced, hstartable⟩

/-- The end of a thread that passes its checks. -/
theorem endThread_spec (s : ProcManager) (c tid : ℕ) (node : ThreadNode) :
    Ensures (s.endThread k c tid node) fun s' => s' = threadEnded k s c tid node := by
  unfold ProcManager.endThread threadEnded
  dsimp only
  split
  case isTrue => exact .of_none
  case isFalse =>
    split
    case isFalse => exact .of_some rfl
    case isTrue =>
      unfold ProcManager.endWarp
      split
      case isTrue => exact .of_none
      case isFalse =>
        dsimp only
        split
        case isTrue => exact .of_none
        case isFalse => exact .of_some rfl

/-- The condition on the end of a thread: its final heartbeat schedules, and it schedules again
when threads wait. -/
def EndServed (k : ProcKnobs) (s : ProcManager) (c tid : ℕ) (node : ThreadNode) : Prop :=
  AllServed k false s ∧ Ensures (s.simThreadSchedule k false) fun s =>
    Ensures (s.endThread k c tid node) fun s =>
      s.numWaitingDispatchedThreads ≠ 0 → AllServed k false s

/-- The end of a thread keeps the manager well when its core is served. -/
theorem managed_terminateThread (h : Managed k s) (c tid : ℕ)
    (hserved : ∀ slot ∈ (s.core c).threads[tid]?, slot.finished = false →
      EndServed k s c tid slot.node) : Ensures (s.terminateThread k c tid) (Managed k) := by
  unfold ProcManager.terminateThread
  split
  case h_1 => exact .of_some h
  case h_2 slot hslot =>
    split
    case isTrue => exact .of_some h
    case isFalse hnot =>
      split
      case isTrue => exact .of_none
      case isFalse =>
        have hrunning : slot.finished = false := Bool.not_eq_true _ ▸ hnot
        obtain ⟨hfirst, hsecond⟩ := hserved slot hslot hrunning
        have hslot' : (s.core c).threads[tid]? = some ⟨slot.node, false⟩ := by
          rw [hslot, ← hrunning]
        intro t ht
        obtain ⟨m, hm, ht⟩ := Option.bind_eq_some_iff.mp ht
        obtain ⟨m', hm', ht⟩ := Option.bind_eq_some_iff.mp ht
        -- the final heartbeat leaves the thread in its slot
        have hkept : (m.core c).threads[tid]? = some ⟨slot.node, false⟩ := by
          obtain ⟨hlt, hget⟩ := List.getElem?_eq_some_iff.mp hslot'
          obtain ⟨added, hadded⟩ := keepsThreads_simThreadSchedule false s m hm c
          rw [← hadded, List.getElem?_append_left hlt]
          exact hslot'
        have hheartbeat := managed_simThreadSchedule false h hfirst m hm
        have hended : Managed k m' := by
          rw [endThread_spec m c tid slot.node m' hm']
          exact managed_threadEnded hheartbeat hkept
        split at ht
        case isTrue hwait =>
          exact managed_simThreadSchedule false hended (hsecond m hm m' hm' hwait) t ht
        case isFalse => exact Option.some.inj ht ▸ hended

/-- The condition on a call. -/
def StepServed (k : ProcKnobs) (s : ProcManager) : ProcStep → Prop
  | .createThreadNode process _ threadId _ => k.acc process = true → GrowsWhileFetched s
      (s.mapBlock process (threadId >>> 16 + k.kernelBlockStartCount process)).1
  | .simThreadSchedule initial => AllServed k initial s
  | .terminateThread c tid => ∀ slot ∈ (s.core c).threads[tid]?, slot.finished = false →
      EndServed k s c tid slot.node

instance (k : ProcKnobs) (s : ProcManager) (step : ProcStep) : Decidable (StepServed k s step) := by
  cases step <;> unfold StepServed
  · unfold GrowsWhileFetched
    infer_instance
  · infer_instance
  · unfold EndServed
    infer_instance

/-- Every step keeps the manager well when it is served. -/
theorem managed_step (h : Managed k s) (step : ProcStep) (hserved : StepServed k s step) :
    Ensures (s.step k step) (Managed k) := by
  cases step with
  | createThreadNode process tid threadId main =>
    exact .of_some (managed_createThreadNode process tid threadId main h hserved)
  | simThreadSchedule initial => exact managed_simThreadSchedule initial h hserved
  | terminateThread c tid => exact managed_terminateThread h c tid hserved

/-- A run whose steps are all served keeps the manager managed. -/
theorem managed_run (h : Managed k s) {steps : List ProcStep}
    (hserved : EachStep (ProcManager.step k) (StepServed k) s steps) :
    Ensures (s.run k steps) (Managed k) := fun _ hrun =>
  EachStep.invariant (fun _ step _ s' hs hclear hstep => managed_step hs step hclear s' hstep) h
    hserved hrun

/-! ## What the dispatch keeps -/

/-- The limits of the GPU cores and the books of the manager. -/
structure DispatchKept (k : ProcKnobs) (s : ProcManager) : Prop where
  threadLimit : ∀ c, k.coreType c = .ptx → (s.core c).runningThreadNum ≤ k.maxThreadsPerCore c
  blockLimit : ∀ c, k.coreType c = .ptx →
    (s.core c).runningBlockNum ≤ k.maxBlock (s.core c).applId
  /-- every thread inserted so far waits in one queue or is on one core, once -/
  once : ∀ r, (waitingCount s fun n => n.id = r) + (dispatchedCount k s fun x => x.node.id = r) =
    if r < s.inserted then 1 else 0
  /-- a running warp is on the core that its block records -/
  running : ∀ c, ∀ x ∈ (s.core c).threads, x.node.acc = true → x.finished = false →
    ∃ i, s.info x.node.blockId = some i ∧ x.node.uid = i.uid ∧ i.dispatchedCoreId = some c
  /-- the warps of a block, also those that have ended, are on one core -/
  oneCore : ∀ c c', ∀ x ∈ (s.core c).threads, ∀ y ∈ (s.core c').threads,
    x.node.uid = y.node.uid → 0 < x.node.uid → c = c'
  recorded : ∀ c, ∀ x ∈ (s.core c).threads, ∀ b i, s.info b = some i → x.node.uid = i.uid →
    i.dispatchedCoreId = some c
  /-- a waiting warp can be dispatched: its block is still to be started, or its core is
  fetching it -/
  queued : ∀ b, ∀ n ∈ s.queueOf b, n.blockId = b ∧ s.blockList n.process b = true ∧
    ∃ i, s.info b = some i ∧ n.uid = i.uid ∧ i.traceExist = true ∧ (i.startToFetch = true →
      ∃ c, i.dispatchedCoreId = some c ∧ (s.core c).fetchingBlockId = some b)
  dispatched : ∀ b i, s.info b = some i →
    i.dispatchedThreadNum = dispatchedCount k s fun x => x.node.uid = i.uid
  retired : ∀ b i, s.info b = some i →
    i.retiredThreadNum = dispatchedCount k s fun x => x.finished && x.node.uid = i.uid
  total : ∀ b i, s.info b = some i →
    i.totalThreadNum = i.dispatchedThreadNum + (s.queueOf b).length
  waiting : s.numWaitingDispatchedThreads = waitingCount s fun _ => true
  noQueue : ∀ b, s.mapperSize ≤ b → s.queueOf b = []
  noCore : ∀ c, k.numSimCores ≤ c → (s.core c).threads = []

/-- A managed state carries everything the dispatch invariant asks for. -/
theorem dispatchKept_of_managed (h : Managed k s) : DispatchKept k s where
  threadLimit := by
    intro c hc
    have hall := h.placed.robs c hc
    omega
  blockLimit := h.owners.blocks
  once := h.tally.placed
  running := by
    intro c x hx hacc hrunning
    have hdone : ¬ x.finished = true := by rw [hrunning]; exact Bool.false_ne_true
    obtain ⟨i, hi, huid⟩ := ((h.books.slots c x hx).2.2 hacc).resolve_left hdone
    exact ⟨i, hi, huid, h.placed.recorded c x hx _ i hi huid⟩
  oneCore := h.placed.oneCore
  recorded := h.placed.recorded
  queued := by
    intro b n hn
    obtain ⟨hblock, -, i, hi, huid⟩ := h.books.queued b n hn
    have hne : s.queueOf b ≠ [] := List.ne_nil_of_mem hn
    exact ⟨hblock, h.startable.listed b n hn, i, hi, huid, h.startable.traced b hne i hi,
      h.placed.reachable b hne i hi⟩
  dispatched := h.books.dispatched
  retired := h.books.retired
  total := h.books.total
  waiting := h.tally.waiting
  noQueue := h.tally.noQueue
  noCore := h.tally.noCore

/-- The limits and the books are kept in every run that returns, in which a core continues only
blocks of its own and a block grows only while its core fetches it. -/
theorem block_dispatch_kept (k : ProcKnobs) (steps : List ProcStep) (s : ProcManager)
    (hserved : EachStep (ProcManager.step k) (StepServed k) (ProcManager.init k) steps)
    (hrun : (ProcManager.init k).run k steps = some s) : DispatchKept k s :=
  dispatchKept_of_managed (managed_run (managed_init k) hserved s hrun)

/-- One GPU core for up to three threads and four blocks. -/
def oneGpuCore : ProcKnobs where
  numSimCores := 1
  coreType := fun _ => .ptx
  maxThreadsPerCore := fun _ => 3
  maxBlock := fun _ => 4
  acc := fun _ => true
  coreList := fun _ => [0]
  kernelBlockStartCount := fun _ => 0
  coreAppl := fun _ => 0
  maxNumCorePerAppl := 0
  assignBlocksGreedilyInitially := false
  greedy := false
  routerPlacement := 0
  coreEnableBegin := 0
  coreEnableEnd := 0

/-- Two blocks of one warp each are started, and the first one ends. -/
theorem block_dispatch_kept_two_blocks : ∃ s, (ProcManager.init oneGpuCore).run oneGpuCore
    [.createThreadNode 0 0 0 true, .createThreadNode 0 1 (2 ^ 16) false,
      .simThreadSchedule true, .terminateThread 0 0] = some s ∧
    (s.core 0).threads.length = 2 ∧ (s.core 0).runningThreadNum = 1 ∧
    DispatchKept oneGpuCore s := by
  have hseen : ((ProcManager.init oneGpuCore).run oneGpuCore
      [.createThreadNode 0 0 0 true, .createThreadNode 0 1 (2 ^ 16) false,
        .simThreadSchedule true, .terminateThread 0 0]).map (fun s =>
          ((s.core 0).threads.length, (s.core 0).runningThreadNum)) = some (2, 1) := by
    decide +kernel
  obtain ⟨s, hrun, hcounts⟩ := Option.map_eq_some_iff.mp hseen
  obtain ⟨hlen, hrunning⟩ := Prod.mk.inj hcounts
  exact ⟨s, hrun, hlen, hrunning, block_dispatch_kept _ _ s (by decide +kernel) hrun⟩

/-- A warp comes to block 0 when the core has gone on to block 1.  No core can be given it any
more: it still waits when the other warps have ended and the core is scheduled again. -/
theorem late_warp_is_never_dispatched : ∃ s, (ProcManager.init oneGpuCore).run oneGpuCore
    [.createThreadNode 0 0 0 true, .createThreadNode 0 1 (2 ^ 16) false,
      .simThreadSchedule true, .createThreadNode 0 2 1 false] = some s ∧
    ¬ DispatchKept oneGpuCore s ∧
    ∃ s', s.run oneGpuCore
      [.terminateThread 0 0, .terminateThread 0 1, .simThreadSchedule false] = some s' ∧
      (s'.core 0).runningThreadNum = 0 ∧ (s'.queueOf 0).length = 1 := by
  have hseen : ((ProcManager.init oneGpuCore).run oneGpuCore
      [.createThreadNode 0 0 0 true, .createThreadNode 0 1 (2 ^ 16) false,
        .simThreadSchedule true, .createThreadNode 0 2 1 false]).map (fun s =>
          ((s.queueOf 0).length, (s.info 0).map fun i => (i.startToFetch, i.dispatchedCoreId),
            (s.core 0).fetchingBlockId,
            (s.run oneGpuCore
              [.terminateThread 0 0, .terminateThread 0 1, .simThreadSchedule false]).map
                fun s' => ((s'.core 0).runningThreadNum, (s'.queueOf 0).length))) =
      some (1, some (true, some 0), some 1, some (0, 1)) := rfl
  obtain ⟨s, hrun, hstate⟩ := Option.map_eq_some_iff.mp hseen
  simp only [Prod.mk.injEq] at hstate
  obtain ⟨hlen, hinfo, hfetching, hend⟩ := hstate
  refine ⟨s, hrun, fun h => ?_, ?_⟩
  · obtain ⟨node, hnode⟩ := List.exists_mem_of_length_pos (by omega : 0 < (s.queueOf 0).length)
    obtain ⟨-, -, i, hi, -, -, hreach⟩ := h.queued 0 node hnode
    rw [hi, Option.map_some] at hinfo
    obtain ⟨hstart, hcore⟩ := Prod.mk.inj (Option.some.inj hinfo)
    obtain ⟨c, hc, hfetch⟩ := hreach hstart
    obtain rfl := Option.some.inj (hcore.symm.trans hc)
    rw [hfetching] at hfetch
    exact absurd hfetch (by decide)
  · obtain ⟨s', hrun', hstate'⟩ := Option.map_eq_some_iff.mp hend
    obtain ⟨hrunning, hwaits⟩ := Prod.mk.inj hstate'
    exact ⟨s', hrun', hrunning, hwaits⟩

end MacSim.Analysis
