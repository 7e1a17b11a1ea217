import Mathlib.Tactic
import MacSim.Computation.Table
import MacSim.Model.ProcessManager

/-!
# The threads of the process manager

Every thread waits in one queue or sits on one core, and the counters of the manager, of a core
and of a block say how many.
-/

set_option autoImplicit false

namespace MacSim.Analysis

open MacSim.Model
open MacSim.Computation

variable {k : ProcKnobs} {s : ProcManager}

/-! ## Counting threads -/

/-- The waiting threads with a property. -/
def waitingCount (s : ProcManager) (p : ThreadNode → Bool) : ℕ :=
  s.threadQueue.countP p + ∑ b ∈ Finset.range s.mapperSize, (s.queueOf b).countP p

/-- The dispatched threads with a property, those that have ended included. -/
def dispatchedCount (k : ProcKnobs) (s : ProcManager) (p : ThreadSlot → Bool) : ℕ :=
  ∑ c ∈ Finset.range k.numSimCores, (s.core c).threads.countP p

/-- A queue that is set is the one of its block only. -/
theorem queueOf_setQueue (s : ProcManager) (b b' : ℕ) (q : Option (List ThreadNode)) :
    (s.setQueue b q).queueOf b' = if b' = b then q.getD [] else s.queueOf b' := by
  unfold ProcManager.queueOf ProcManager.setQueue
  dsimp only
  rw [Function.update_apply]
  split <;> rfl

/-- A thread at the end of a block's queue. -/
theorem sum_queue_append (s : ProcManager) {b n : ℕ} (hb : b < n) (q : Option (List ThreadNode))
    (p : ThreadNode → Bool) {z : ℕ} (hq : (q.getD []).countP p = (s.queueOf b).countP p + z) :
    ∑ b' ∈ Finset.range n, ((s.setQueue b q).queueOf b').countP p =
      ∑ b' ∈ Finset.range n, (s.queueOf b').countP p + z := by
  have hsum := sum_update_add (t := s.blockQueue) (i := b) (x := q)
    (fun q => (q.getD []).countP p) (Finset.mem_range.mpr hb) hq
  exact hsum

/-- A thread at the head of a block's queue. -/
theorem sum_queue_pop (s : ProcManager) {b n : ℕ} (hb : b < n) (q : Option (List ThreadNode))
    (p : ThreadNode → Bool) {z : ℕ} (hq : (s.queueOf b).countP p = (q.getD []).countP p + z) :
    ∑ b' ∈ Finset.range n, (s.queueOf b').countP p =
      ∑ b' ∈ Finset.range n, ((s.setQueue b q).queueOf b').countP p + z := by
  have hsum := sum_update_sub (t := s.blockQueue) (i := b) (x := q)
    (fun q => (q.getD []).countP p) (Finset.mem_range.mpr hb) hq
  exact hsum

/-- A core that is set is the one of its number only. -/
theorem core_setCore (s : ProcManager) (c c' : ℕ) (x : SchedCore) :
    (s.setCore c x).core c' = if c' = c then x else s.core c' := Function.update_apply ..

/-- A dispatch adds a thread to those dispatched. -/
theorem dispatchedCount_place (s : ProcManager) {c : ℕ} (hc : c < k.numSimCores)
    (node : ThreadNode) (robs : ℕ) (p : ThreadSlot → Bool) :
    dispatchedCount k (s.place c node robs) p =
      dispatchedCount k s p + if p ⟨node, false⟩ then 1 else 0 := by
  refine sum_update_add (t := s.core) (fun x => x.threads.countP p) (Finset.mem_range.mpr hc) ?_
  rw [List.countP_append, List.countP_singleton]

/-- Where a property does not depend on whether a thread has ended, its end changes no count. -/
theorem dispatchedCount_finish (s : ProcManager) {c tid : ℕ} (hc : c < k.numSimCores)
    {node : ThreadNode} (hslot : (s.core c).threads[tid]? = some ⟨node, false⟩)
    (p : ThreadSlot → Bool) {z : ℕ}
    (hp : (if p ⟨node, true⟩ then 1 else 0) = (if p ⟨node, false⟩ then 1 else 0) + z) :
    dispatchedCount k (s.finishThread k c tid node) p = dispatchedCount k s p + z := by
  refine sum_update_add (t := s.core) (fun x => x.threads.countP p) (Finset.mem_range.mpr hc) ?_
  obtain ⟨htid, hget⟩ := List.getElem?_eq_some_iff.mp hslot
  have hpos : (if p (s.core c).threads[tid] then 1 else 0) ≤ (s.core c).threads.countP p := by
    split
    case isTrue h => exact List.countP_pos_iff.mpr ⟨_, List.getElem_mem htid, h⟩
    case isFalse => exact Nat.zero_le _
  rw [SchedCore.finish_threads, List.countP_set htid, hp]
  rw [hget] at hpos ⊢
  omega

/-! ## The tally -/

/-- Every thread is in one place, and the counters say how many wait and how many run. -/
structure Tally (k : ProcKnobs) (s : ProcManager) : Prop where
  waiting : s.numWaitingDispatchedThreads = waitingCount s fun _ => true
  placed : ∀ r, (waitingCount s fun n => n.id = r) + (dispatchedCount k s fun x => x.node.id = r) =
    if r < s.inserted then 1 else 0
  noQueue : ∀ b, s.mapperSize ≤ b → s.queueOf b = []
  noCore : ∀ c, k.numSimCores ≤ c → (s.core c).threads = []
  running : ∀ c, (s.core c).runningThreadNum = (s.core c).threads.countP fun x => !x.finished

/-- At first no thread is counted. -/
theorem tally_init (k : ProcKnobs) : Tally k (ProcManager.init k) where
  waiting := by simp [ProcManager.init, waitingCount, ProcManager.queueOf]
  placed := by
    intro r
    simp [ProcManager.init, waitingCount, dispatchedCount, ProcManager.queueOf]
  noQueue := fun _ _ => rfl
  noCore := fun _ _ => rfl
  running := fun _ => rfl

/-- A thread that is inserted is one more that waits. -/
theorem waitingCount_insertThread (s : ProcManager) (node : ThreadNode) (p : ThreadNode → Bool) :
    waitingCount (s.insertThread node) p =
      waitingCount s p + if p { node with id := s.inserted, uid := 0 } then 1 else 0 := by
  unfold waitingCount ProcManager.insertThread
  dsimp only
  rw [List.countP_append, List.countP_singleton]
  exact Nat.add_right_comm _ _ _

/-- Inserting a thread keeps the tally. -/
theorem tally_insertThread (h : Tally k s) (node : ThreadNode) :
    Tally k (s.insertThread node) where
  waiting := by
    rw [waitingCount_insertThread, ← h.waiting]
    rfl
  placed := by
    intro r
    have hplaced := h.placed r
    have hsame : dispatchedCount k (s.insertThread node) (fun x => x.node.id = r) =
        dispatchedCount k s fun x => x.node.id = r := rfl
    have hinserted : (s.insertThread node).inserted = s.inserted + 1 := rfl
    rw [waitingCount_insertThread, hsame, hinserted]
    simp only [decide_eq_true_eq]
    split at hplaced <;> split <;> split <;> omega
  noQueue := h.noQueue
  noCore := h.noCore
  running := h.running

/-- A warp that is inserted is one more that waits. -/
theorem waitingCount_insertBlock (s : ProcManager) {node : ThreadNode}
    (hb : node.blockId < s.mapperSize) (p : ThreadNode → Bool) :
    waitingCount (s.insertBlock node) p = waitingCount s p +
      if p { node with id := s.inserted, uid := (s.infoFor node.blockId).uid } then 1 else 0 := by
  have hsum := sum_queue_append s hb (some (s.queueOf node.blockId ++
    [{ node with id := s.inserted, uid := (s.infoFor node.blockId).uid }])) p
    (z := if p { node with id := s.inserted, uid := (s.infoFor node.blockId).uid } then 1 else 0)
    (by rw [Option.getD_some, List.countP_append, List.countP_singleton])
  unfold waitingCount
  rw [Nat.add_assoc, ← hsum]
  rfl

/-- Inserting a warp keeps the tally. -/
theorem tally_insertBlock (h : Tally k s) {node : ThreadNode} (hb : node.blockId < s.mapperSize) :
    Tally k (s.insertBlock node) where
  waiting := by
    rw [waitingCount_insertBlock s hb, ← h.waiting]
    rfl
  placed := by
    intro r
    have hplaced := h.placed r
    have hsame : dispatchedCount k (s.insertBlock node) (fun x => x.node.id = r) =
        dispatchedCount k s fun x => x.node.id = r := rfl
    have hinserted : (s.insertBlock node).inserted = s.inserted + 1 := rfl
    rw [waitingCount_insertBlock s hb, hsame, hinserted]
    simp only [decide_eq_true_eq]
    split at hplaced <;> split <;> split <;> omega
  noQueue := by
    intro b' hb'
    have hne : b' ≠ node.blockId := by
      rintro rfl
      exact absurd hb (not_lt.mpr hb')
    have hsame := queueOf_setQueue s node.blockId b' (some (s.queueOf node.blockId ++
      [{ node with id := s.inserted, uid := (s.infoFor node.blockId).uid }]))
    rw [if_neg hne] at hsame
    exact hsame.trans (h.noQueue b' hb')
  noCore := h.noCore
  running := h.running

/-- A new block number is one without a queue. -/
theorem tally_mapBlock (h : Tally k s) (process key : ℕ) :
    Tally k (s.mapBlock process key).2 := by
  unfold ProcManager.mapBlock
  split
  case h_1 b hb => exact h
  case h_2 =>
    have hcount : ∀ p, waitingCount { s with
        mapper := Function.update s.mapper process
          (Function.update (s.mapper process) key (some s.mapperSize))
        mapperSize := s.mapperSize + 1 } p = waitingCount s p := by
      intro p
      have hlast := h.noQueue s.mapperSize le_rfl
      unfold waitingCount
      dsimp only
      rw [Finset.sum_range_succ]
      have hnone : (s.queueOf s.mapperSize).countP p = 0 := by rw [hlast]; rfl
      change _ + (_ + (s.queueOf s.mapperSize).countP p) = _
      rw [hnone, Nat.add_zero]
      rfl
    refine ⟨?_, ?_, ?_, h.noCore, h.running⟩
    · rw [hcount]
      exact h.waiting
    · intro r
      rw [hcount]
      exact h.placed r
    · intro b hb
      exact h.noQueue b (Nat.le_of_succ_le hb)

/-- A waiting thread is taken out of its queue and put on a core. -/
theorem tally_place {m : ProcManager} {node : ThreadNode} {c : ℕ} (h : Tally k s) (robs : ℕ)
    (hc : c < k.numSimCores)
    (hcount : ∀ p, waitingCount s p = waitingCount m p + if p node then 1 else 0)
    (hwaiting : m.numWaitingDispatchedThreads = s.numWaitingDispatchedThreads - 1)
    (hcore : m.core = s.core) (hinserted : m.inserted = s.inserted)
    (hnoQueue : ∀ b, m.mapperSize ≤ b → m.queueOf b = []) : Tally k (m.place c node robs) where
  waiting := by
    have hall := hcount fun _ => true
    rw [if_pos rfl] at hall
    change m.numWaitingDispatchedThreads = waitingCount m _
    rw [hwaiting, h.waiting, hall]
    exact Nat.add_sub_cancel _ _
  placed := by
    intro r
    have hplaced := h.placed r
    have hall := hcount fun n => n.id = r
    have hsame : dispatchedCount k m (fun x => x.node.id = r) =
        dispatchedCount k s fun x => x.node.id = r := by
      unfold dispatchedCount
      rw [hcore]
    have hwait : waitingCount (m.place c node robs) (fun n => n.id = r) =
        waitingCount m fun n => n.id = r := rfl
    have hids : (m.place c node robs).inserted = s.inserted := hinserted
    rw [hwait, dispatchedCount_place m hc, hsame, hids]
    rw [hall] at hplaced
    rw [← hplaced]
    simp only [decide_eq_true_eq]
    omega
  noQueue := hnoQueue
  noCore := by
    intro c' hc'
    have hne : c' ≠ c := by
      rintro rfl
      exact absurd hc (not_lt.mpr hc')
    rw [ProcManager.place, core_setCore, if_neg hne, hcore]
    exact h.noCore c' hc'
  running := by
    intro c'
    rw [ProcManager.place, core_setCore, hcore]
    split
    case isTrue =>
      have hrun := h.running c
      dsimp only
      rw [hrun, List.countP_append]
      rfl
    case isFalse => exact h.running c'

/-- The start of a block keeps the tally. -/
theorem tally_startBlock (h : Tally k s) (c b : ℕ) : Tally k (s.startBlock c b) where
  waiting := h.waiting
  placed := by
    intro r
    have hsame : ∀ p, dispatchedCount k (s.startBlock c b) p = dispatchedCount k s p := by
      intro p
      refine Finset.sum_congr rfl fun c' _ => ?_
      rw [ProcManager.startBlock, core_setCore]
      split
      case isTrue heq => rw [heq]
      case isFalse => rfl
    rw [hsame]
    exact h.placed r
  noQueue := h.noQueue
  noCore := by
    intro c' hc'
    rw [ProcManager.startBlock, core_setCore]
    split
    case isTrue heq => exact heq ▸ h.noCore c' hc'
    case isFalse => exact h.noCore c' hc'
  running := by
    intro c'
    rw [ProcManager.startBlock, core_setCore]
    split
    case isTrue => exact h.running c
    case isFalse => exact h.running c'

/-- A running thread ends. -/
theorem tally_finishThread (h : Tally k s) {c tid : ℕ} {node : ThreadNode}
    (hslot : (s.core c).threads[tid]? = some ⟨node, false⟩) :
    Tally k (s.finishThread k c tid node) where
  waiting := h.waiting
  placed := by
    intro r
    have hc : c < k.numSimCores := by
      by_contra hge
      rw [h.noCore c (not_lt.mp hge)] at hslot
      simp at hslot
    rw [dispatchedCount_finish s hc hslot (z := 0) (fun x => x.node.id = r) rfl]
    exact h.placed r
  noQueue := h.noQueue
  noCore := by
    intro c' hc'
    rw [ProcManager.finishThread, core_setCore]
    split
    case isTrue heq =>
      have hnone := h.noCore c' hc'
      rw [heq] at hnone
      rw [SchedCore.finish_threads, hnone]
      rfl
    case isFalse => exact h.noCore c' hc'
  running := by
    intro c'
    rw [ProcManager.finishThread, core_setCore]
    split
    case isTrue =>
      obtain ⟨htid, hget⟩ := List.getElem?_eq_some_iff.mp hslot
      rw [SchedCore.finish_threads, SchedCore.finish_runningThreadNum, h.running c,
        List.countP_set htid, hget]
      rfl
    case isFalse => exact h.running c'

/-- A warp of a block has ended; a block that ends has no warp waiting. -/
theorem tally_retireWarp (h : Tally k s) (c : ℕ) (node : ThreadNode)
    (hempty : ∀ i, s.info node.blockId = some i → i.retiredThreadNum + 1 = i.totalThreadNum →
      s.queueOf node.blockId = []) : Tally k (s.retireWarp c node) := by
  unfold ProcManager.retireWarp
  split
  case h_1 => exact h
  case h_2 i hi =>
    split
    case isFalse => exact ⟨h.waiting, h.placed, h.noQueue, h.noCore, h.running⟩
    case isTrue hlast =>
      have hqueue : ∀ b, (s.setQueue node.blockId none).queueOf b = s.queueOf b := by
        intro b
        rw [queueOf_setQueue]
        split
        case isTrue heq => rw [heq, hempty i hi hlast]; rfl
        case isFalse => rfl
      set m : ProcManager := { ((s.setInfo node.blockId none).setQueue node.blockId none).setCore c
          { s.core c with runningBlockNum := (s.core c).runningBlockNum - 1 } with
        blockList := Function.update s.blockList node.process
          (Function.update (s.blockList node.process) node.blockId false) } with hm
      have hthreads : ∀ c', (m.core c').threads = (s.core c').threads ∧
          (m.core c').runningThreadNum = (s.core c').runningThreadNum := by
        intro c'
        have hcore : m.core c' = if c' = c then
            { s.core c with runningBlockNum := (s.core c).runningBlockNum - 1 } else s.core c' :=
          core_setCore ..
        rw [hcore]
        split
        case isTrue heq => rw [heq]; exact ⟨rfl, rfl⟩
        case isFalse => exact ⟨rfl, rfl⟩
      have hwait : ∀ p, waitingCount m p = waitingCount s p := by
        intro p
        unfold waitingCount
        congr 1
        exact Finset.sum_congr rfl fun b _ => congrArg (List.countP p) (hqueue b)
      have hdisp : ∀ p, dispatchedCount k m p = dispatchedCount k s p := by
        intro p
        exact Finset.sum_congr rfl fun c' _ => by rw [(hthreads c').1]
      refine ⟨?_, ?_, ?_, ?_, ?_⟩
      · rw [hwait]
        exact h.waiting
      · intro r
        rw [hwait, hdisp]
        exact h.placed r
      · intro b hb
        exact (hqueue b).trans (h.noQueue b hb)
      · intro c' hc'
        rw [(hthreads c').1]
        exact h.noCore c' hc'
      · intro c'
        rw [(hthreads c').1, (hthreads c').2]
        exact h.running c'

/-! ## The books of the blocks -/

/-- A thread on a core is among those dispatched. -/
theorem dispatchedCount_pos {p : ThreadSlot → Bool} {c : ℕ} {x : ThreadSlot}
    (hc : c < k.numSimCores) (hx : x ∈ (s.core c).threads) (hp : p x = true) :
    0 < dispatchedCount k s p := by
  have hone : 0 < (s.core c).threads.countP p := List.countP_pos_iff.mpr ⟨x, hx, hp⟩
  exact lt_of_lt_of_le hone (Finset.single_le_sum (f := fun c => (s.core c).threads.countP p)
    (fun _ _ => Nat.zero_le _) (Finset.mem_range.mpr hc))

/-- Fewer threads are counted by a narrower question. -/
theorem dispatchedCount_mono {p q : ThreadSlot → Bool} (h : ∀ x, p x = true → q x = true) :
    dispatchedCount k s p ≤ dispatchedCount k s q :=
  Finset.sum_le_sum fun _ _ => List.countP_mono_left fun x _ => h x

/-- The threads with a property have ended or run. -/
theorem dispatchedCount_split (p : ThreadSlot → Bool) :
    dispatchedCount k s p = (dispatchedCount k s fun x => x.finished && p x) +
      dispatchedCount k s fun x => !x.finished && p x := by
  unfold dispatchedCount
  rw [← Finset.sum_add_distrib]
  refine Finset.sum_congr rfl fun c _ => ?_
  induction (s.core c).threads with
  | nil => rfl
  | cons x l ih =>
    simp only [List.countP_cons, ih]
    cases x.finished <;> cases p x <;> simp <;> omega

/-- The counters of a block count its warps, and a warp that is not done is counted somewhere. -/
structure BlockBooks (k : ProcKnobs) (s : ProcManager) : Prop where
  total : ∀ b i, s.info b = some i →
    i.totalThreadNum = i.dispatchedThreadNum + (s.queueOf b).length
  dispatched : ∀ b i, s.info b = some i →
    i.dispatchedThreadNum = dispatchedCount k s fun x => x.node.uid = i.uid
  retired : ∀ b i, s.info b = some i →
    i.retiredThreadNum = dispatchedCount k s fun x => x.finished && x.node.uid = i.uid
  live : ∀ b i, s.info b = some i → i.retired = false
  uid : ∀ b i, s.info b = some i → 0 < i.uid ∧ i.uid < s.nextUid
  uid_inj : ∀ b b' i i', s.info b = some i → s.info b' = some i' → i.uid = i'.uid → b = b'
  threads : ∀ n ∈ s.threadQueue, n.uid = 0 ∧ n.acc = false
  queued : ∀ b, ∀ n ∈ s.queueOf b, n.blockId = b ∧ n.acc = true ∧
    ∃ i, s.info b = some i ∧ n.uid = i.uid
  slots : ∀ c, ∀ x ∈ (s.core c).threads, x.node.uid < s.nextUid ∧
    (x.node.acc = false → x.node.uid = 0) ∧
    (x.node.acc = true → x.finished = true ∨
      ∃ i, s.info x.node.blockId = some i ∧ x.node.uid = i.uid)
  nextUid : 0 < s.nextUid

/-- At first the books of blocks are right. -/
theorem blockBooks_init (k : ProcKnobs) : BlockBooks k (ProcManager.init k) := by
  have hinfo : ∀ b i, (ProcManager.init k).info b = some i → b = 0 ∧ i = BlockInfo.init 1 := by
    intro b i hi
    simp only [ProcManager.init] at hi
    split at hi
    case isTrue hb => exact ⟨hb, (Option.some.inj hi).symm⟩
    case isFalse => cases hi
  refine ⟨?_, ?_, ?_, ?_, ?_, ?_, ?_, ?_, ?_, Nat.two_pos⟩
  · intro b i hi
    rw [(hinfo b i hi).2]
    rfl
  · intro b i hi
    rw [(hinfo b i hi).2]
    simp [BlockInfo.init, dispatchedCount, ProcManager.init]
  · intro b i hi
    rw [(hinfo b i hi).2]
    simp [BlockInfo.init, dispatchedCount, ProcManager.init]
  · intro b i hi
    rw [(hinfo b i hi).2]
    rfl
  · intro b i hi
    rw [(hinfo b i hi).2]
    exact ⟨Nat.one_pos, Nat.one_lt_two⟩
  · intro b b' i i' hi hi' _
    rw [(hinfo b i hi).1, (hinfo b' i' hi').1]
  · intro n hn
    cases hn
  · intro b n hn
    cases hn
  · intro c x hx
    cases hx

/-- Inserting a thread keeps the books of blocks right. -/
theorem blockBooks_insertThread (h : BlockBooks k s) {node : ThreadNode} (hacc : node.acc = false) :
    BlockBooks k (s.insertThread node) :=
  { h with
    threads := by
      intro n hn
      rcases List.mem_append.mp hn with hold | hnew
      · exact h.threads n hold
      · rw [List.mem_singleton.mp hnew]
        exact ⟨rfl, hacc⟩ }

/-- A block without data has no warps waiting. -/
theorem queueOf_nil_of_none (h : BlockBooks k s) {b : ℕ} (hb : s.info b = none) :
    s.queueOf b = [] := by
  refine List.eq_nil_iff_forall_not_mem.mpr fun n hn => ?_
  obtain ⟨-, -, i, hi, -⟩ := h.queued b n hn
  rw [hb] at hi
  cases hi

/-- The schedule information for a block, there already or new. -/
theorem infoFor_spec (h : BlockBooks k s) (b : ℕ) :
    (s.infoFor b).totalThreadNum = (s.infoFor b).dispatchedThreadNum + (s.queueOf b).length ∧
    ((s.infoFor b).dispatchedThreadNum =
      dispatchedCount k s fun x => x.node.uid = (s.infoFor b).uid) ∧
    ((s.infoFor b).retiredThreadNum =
      dispatchedCount k s fun x => x.finished && x.node.uid = (s.infoFor b).uid) ∧
    (s.infoFor b).retired = false := by
  cases hb : s.info b with
  | some i =>
    have hfor : s.infoFor b = i := by rw [ProcManager.infoFor, hb]; rfl
    rw [hfor]
    exact ⟨h.total b i hb, h.dispatched b i hb, h.retired b i hb, h.live b i hb⟩
  | none =>
    have hfor : s.infoFor b = BlockInfo.init s.nextUid := by rw [ProcManager.infoFor, hb]; rfl
    have hzero : dispatchedCount k s (fun x => x.node.uid = s.nextUid) = 0 := by
      refine Finset.sum_eq_zero fun c _ => List.countP_eq_zero.mpr fun x hx heq => ?_
      exact absurd (of_decide_eq_true heq) (h.slots c x hx).1.ne
    have hfinished : dispatchedCount k s (fun x => x.finished && x.node.uid = s.nextUid) = 0 := by
      refine Nat.le_zero.mp (hzero ▸ dispatchedCount_mono fun x hx => ?_)
      exact (Bool.and_eq_true_iff.mp hx).2
    rw [hfor, queueOf_nil_of_none h hb]
    exact ⟨rfl, hzero.symm, hfinished.symm, rfl⟩

/-- The number of a block's information. -/
theorem infoFor_uid (h : BlockBooks k s) (b : ℕ) :
    0 < (s.infoFor b).uid ∧
      (s.infoFor b).uid < (if s.info b = none then s.nextUid + 1 else s.nextUid) ∧
      ∀ b' i', s.info b' = some i' → i'.uid = (s.infoFor b).uid → b' = b := by
  cases hb : s.info b with
  | some i =>
    have hfor : s.infoFor b = i := by rw [ProcManager.infoFor, hb]; rfl
    rw [hfor, if_neg (by simp)]
    exact ⟨(h.uid b i hb).1, (h.uid b i hb).2, fun b' i' hi' heq => h.uid_inj b' b i' i hi' hb heq⟩
  | none =>
    have hfor : s.infoFor b = BlockInfo.init s.nextUid := by rw [ProcManager.infoFor, hb]; rfl
    rw [hfor, if_pos rfl]
    refine ⟨h.nextUid, Nat.lt_succ_self _, fun b' i' hi' heq => ?_⟩
    have hlt := (h.uid b' i' hi').2
    have heq : i'.uid = s.nextUid := heq
    omega

/-- Inserting a warp keeps the books of blocks right. -/
theorem blockBooks_insertBlock (h : BlockBooks k s) {node : ThreadNode} (hacc : node.acc = true) :
    BlockBooks k (s.insertBlock node) := by
  obtain ⟨htotal, hdisp, hret, hlive⟩ := infoFor_spec h node.blockId
  obtain ⟨hpos, hlt, hinj⟩ := infoFor_uid h node.blockId
  set i := s.infoFor node.blockId with hi
  set new : ThreadNode := { node with id := s.inserted, uid := i.uid } with hnew
  have hinfo : ∀ b, (s.insertBlock node).info b = if b = node.blockId then
      some { i with totalThreadNum := i.totalThreadNum + 1, traceExist := true }
      else s.info b := fun b => Function.update_apply ..
  have hqueue : ∀ b, (s.insertBlock node).queueOf b = if b = node.blockId then
      s.queueOf node.blockId ++ [new] else s.queueOf b := by
    intro b
    exact queueOf_setQueue s node.blockId b (some (s.queueOf node.blockId ++ [new]))
  have hnext : (s.insertBlock node).nextUid =
      if s.info node.blockId = none then s.nextUid + 1 else s.nextUid := rfl
  have hle : s.nextUid ≤ (s.insertBlock node).nextUid := by
    rw [hnext]
    split <;> omega
  -- an information that was there is still there, with the same number
  have hkept : ∀ b i', s.info b = some i' → ∃ i'', (s.insertBlock node).info b = some i'' ∧
      i''.uid = i'.uid := by
    intro b i' hi'
    rw [hinfo]
    split
    case isTrue heq =>
      have hfor : i = i' := by rw [hi, ProcManager.infoFor, ← heq, hi']; rfl
      exact ⟨_, rfl, by rw [hfor]⟩
    case isFalse => exact ⟨i', hi', rfl⟩
  refine ⟨?_, ?_, ?_, ?_, ?_, ?_, h.threads, ?_, ?_, lt_of_lt_of_le h.nextUid hle⟩
  · intro b i' hi'
    rw [hinfo] at hi'
    rw [hqueue]
    split at hi'
    case isTrue heq =>
      obtain rfl := Option.some.inj hi'
      rw [if_pos heq, List.length_append, List.length_singleton]
      dsimp only
      omega
    case isFalse hne =>
      rw [if_neg hne]
      exact h.total b i' hi'
  · intro b i' hi'
    rw [hinfo] at hi'
    split at hi'
    case isTrue => exact Option.some.inj hi' ▸ hdisp
    case isFalse => exact h.dispatched b i' hi'
  · intro b i' hi'
    rw [hinfo] at hi'
    split at hi'
    case isTrue => exact Option.some.inj hi' ▸ hret
    case isFalse => exact h.retired b i' hi'
  · intro b i' hi'
    rw [hinfo] at hi'
    split at hi'
    case isTrue => exact Option.some.inj hi' ▸ hlive
    case isFalse => exact h.live b i' hi'
  · intro b i' hi'
    rw [hinfo] at hi'
    split at hi'
    case isTrue =>
      obtain rfl := Option.some.inj hi'
      exact ⟨hpos, hlt⟩
    case isFalse =>
      obtain ⟨h₁, h₂⟩ := h.uid b i' hi'
      exact ⟨h₁, lt_of_lt_of_le h₂ hle⟩
  · intro b b' i₁ i₂ hi₁ hi₂ heq
    rw [hinfo] at hi₁ hi₂
    split at hi₁
    case isTrue hb =>
      split at hi₂
      case isTrue hb' => rw [hb, hb']
      case isFalse =>
        obtain rfl := Option.some.inj hi₁
        rw [hb, hinj b' i₂ hi₂ heq.symm]
    case isFalse =>
      split at hi₂
      case isTrue hb' =>
        obtain rfl := Option.some.inj hi₂
        rw [hb', hinj b i₁ hi₁ heq]
      case isFalse => exact h.uid_inj b b' i₁ i₂ hi₁ hi₂ heq
  · intro b n hn
    rw [hqueue] at hn
    have hold : ∀ b, n ∈ s.queueOf b → n.blockId = b ∧ n.acc = true ∧
        ∃ i', (s.insertBlock node).info b = some i' ∧ n.uid = i'.uid := by
      intro b hmem
      obtain ⟨h₁, h₂, i', hi', huid⟩ := h.queued b n hmem
      obtain ⟨i'', hi'', heq⟩ := hkept b i' hi'
      exact ⟨h₁, h₂, i'', hi'', by rw [heq, huid]⟩
    split at hn
    case isTrue heq =>
      rcases List.mem_append.mp hn with hmem | hmem
      · rw [heq]
        exact hold _ hmem
      · rw [List.mem_singleton.mp hmem]
        exact ⟨heq.symm, hacc, _, (hinfo b).trans (if_pos heq), rfl⟩
    case isFalse => exact hold b hn
  · intro c x hx
    obtain ⟨h₁, h₂, h₃⟩ := h.slots c x hx
    refine ⟨lt_of_lt_of_le h₁ hle, h₂, fun hx' => ?_⟩
    rcases h₃ hx' with hdone | ⟨i', hi', huid⟩
    · exact Or.inl hdone
    · obtain ⟨i'', hi'', heq⟩ := hkept _ i' hi'
      exact Or.inr ⟨i'', hi'', by rw [heq, huid]⟩

/-- A thread that is placed is the last one of its core. -/
theorem core_place (s : ProcManager) (c : ℕ) (node : ThreadNode) (robs c' : ℕ) :
    (s.place c node robs).core c' = if c' = c then
      { s.core c with
        threads := (s.core c).threads ++ [⟨node, false⟩]
        runningThreadNum := (s.core c).runningThreadNum + 1
        applId := node.process
        freeRobs := robs }
      else s.core c' := core_setCore ..

/-- After a dispatch the threads of a core are those it had and the one that was placed. -/
theorem mem_threads_place {c : ℕ} {node : ThreadNode} {robs c' : ℕ} {x : ThreadSlot}
    (hx : x ∈ ((s.place c node robs).core c').threads) :
    x ∈ (s.core c').threads ∨ c' = c ∧ x = ⟨node, false⟩ := by
  rw [core_place] at hx
  split at hx
  case isTrue heq =>
    rcases List.mem_append.mp hx with hold | hnew
    · exact Or.inl (heq ▸ hold)
    · exact Or.inr ⟨heq, List.mem_singleton.mp hnew⟩
  case isFalse => exact Or.inl hx

/-- A dispatch leaves the block that a core fetches. -/
theorem fetchingBlockId_place (s : ProcManager) (c : ℕ) (node : ThreadNode) (robs c' : ℕ) :
    ((s.place c node robs).core c').fetchingBlockId = (s.core c').fetchingBlockId := by
  rw [core_place]
  split
  case isTrue heq => rw [heq]
  case isFalse => rfl

/-- A thread of a CPU application is dispatched. -/
theorem blockBooks_placeThread (h : BlockBooks k s) {c : ℕ} (hc : c < k.numSimCores)
    {node : ThreadNode} {rest : List ThreadNode} (hqueue : s.threadQueue = node :: rest)
    (robs : ℕ) : BlockBooks k ((s.takeThread rest).place c node robs) := by
  set m := s.takeThread rest with hm
  obtain ⟨huid, hacc⟩ := h.threads node (by rw [hqueue]; exact List.mem_cons_self ..)
  have hcount : ∀ p : ThreadSlot → Bool, p ⟨node, false⟩ = false →
      dispatchedCount k (m.place c node robs) p = dispatchedCount k s p := by
    intro p hp
    rw [dispatchedCount_place m hc, hp]
    rfl
  refine ⟨h.total, ?_, ?_, h.live, h.uid, h.uid_inj, ?_, h.queued, ?_, h.nextUid⟩
  · intro b i hi
    rw [hcount _ (decide_eq_false (by rw [huid]; exact (h.uid b i hi).1.ne))]
    exact h.dispatched b i hi
  · intro b i hi
    rw [hcount _ (by simp)]
    exact h.retired b i hi
  · intro n' hn'
    exact h.threads n' (by rw [hqueue]; exact List.mem_cons_of_mem _ hn')
  · intro c' x hx
    rcases mem_threads_place hx with hold | ⟨-, rfl⟩
    · exact h.slots c' x hold
    · refine ⟨by dsimp only; rw [huid]; exact h.nextUid, fun _ => huid, fun hx' => ?_⟩
      rw [hacc] at hx'
      cases hx'

/-- Data that is set is that of its block only. -/
theorem info_setInfo (s : ProcManager) (b b' : ℕ) (i : Option BlockInfo) :
    (s.setInfo b i).info b' = if b' = b then i else s.info b' := Function.update_apply ..

/-- The start of a block marks the block and its core. -/
theorem info_startBlock {b : ℕ} {i : BlockInfo} (hi : s.info b = some i) (c b' : ℕ) :
    (s.startBlock c b).info b' = if b' = b then
      some { i with startToFetch := true, dispatchedCoreId := some c } else s.info b' := by
  have hinfo := info_setInfo s b b' ((s.info b).map fun i =>
    { i with startToFetch := true, dispatchedCoreId := some c })
  rw [hi, Option.map_some] at hinfo
  unfold ProcManager.startBlock
  rw [hi]
  exact hinfo

/-- The start of a block gives its core one block more, to be fetched. -/
theorem core_startBlock (s : ProcManager) (c b c' : ℕ) :
    (s.startBlock c b).core c' = if c' = c then
      { s.core c with
        runningBlockNum := (s.core c).runningBlockNum + 1, fetchingBlockId := some b }
      else s.core c' := core_setCore ..

/-- What the books say of a thread on a core. -/
def SlotBooks (s : ProcManager) (x : ThreadSlot) : Prop :=
  x.node.uid < s.nextUid ∧ (x.node.acc = false → x.node.uid = 0) ∧
    (x.node.acc = true → x.finished = true ∨
      ∃ i, s.info x.node.blockId = some i ∧ x.node.uid = i.uid)

/-- A step that changes the data of one block keeps the books right, when the new data counts the
warps of the block as they are now and the warps of the others are counted as before. -/
theorem BlockBooks.of_change (h : BlockBooks k s) {s' : ProcManager} {b : ℕ} {i j : BlockInfo}
    (hi : s.info b = some i)
    (hinfo : ∀ b', s'.info b' = if b' = b then some j else s.info b')
    (huid : j.uid = i.uid) (hlive : j.retired = i.retired)
    (htotal : j.totalThreadNum = j.dispatchedThreadNum + (s'.queueOf b).length)
    (hdispatched : j.dispatchedThreadNum = dispatchedCount k s' fun x => x.node.uid = i.uid)
    (hretired : j.retiredThreadNum =
      dispatchedCount k s' fun x => x.finished && x.node.uid = i.uid)
    (hother : ∀ u, u ≠ i.uid →
      (dispatchedCount k s' fun x => x.node.uid = u) =
          dispatchedCount k s (fun x => x.node.uid = u) ∧
        (dispatchedCount k s' fun x => x.finished && x.node.uid = u) =
          dispatchedCount k s fun x => x.finished && x.node.uid = u)
    (hqueue : ∀ b', b' ≠ b → s'.queueOf b' = s.queueOf b')
    (hqueued : s'.queueOf b ⊆ s.queueOf b)
    (hthreads : s'.threadQueue = s.threadQueue) (hnext : s'.nextUid = s.nextUid)
    (hslots : ∀ c, ∀ x ∈ (s'.core c).threads, SlotBooks s x) : BlockBooks k s' := by
  -- the data of a block is the new one, or that of another block as it was
  have hold : ∀ b' i', s'.info b' = some i' →
      (b' = b ∧ i' = j) ∨ (b' ≠ b ∧ s.info b' = some i' ∧ i'.uid ≠ i.uid) := by
    intro b' i' hi'
    rw [hinfo] at hi'
    split at hi'
    case isTrue heq => exact Or.inl ⟨heq, (Option.some.inj hi').symm⟩
    case isFalse hne =>
      exact Or.inr ⟨hne, hi', fun heq => hne (h.uid_inj b' b i' i hi' hi heq)⟩
  have hkept : ∀ b' i', s.info b' = some i' → ∃ i'', s'.info b' = some i'' ∧ i''.uid = i'.uid := by
    intro b' i' hi'
    rw [hinfo]
    split
    case isTrue heq =>
      rw [heq, hi] at hi'
      obtain rfl := Option.some.inj hi'
      exact ⟨j, rfl, huid⟩
    case isFalse => exact ⟨i', hi', rfl⟩
  refine ⟨?_, ?_, ?_, ?_, ?_, ?_, ?_, ?_, ?_, ?_⟩
  · intro b' i' hi'
    rcases hold b' i' hi' with ⟨rfl, rfl⟩ | ⟨hne, hi', -⟩
    · exact htotal
    · rw [hqueue b' hne]
      exact h.total b' i' hi'
  · intro b' i' hi'
    rcases hold b' i' hi' with ⟨rfl, rfl⟩ | ⟨-, hi', hdiff⟩
    · rw [huid]
      exact hdispatched
    · rw [(hother _ hdiff).1]
      exact h.dispatched b' i' hi'
  · intro b' i' hi'
    rcases hold b' i' hi' with ⟨rfl, rfl⟩ | ⟨-, hi', hdiff⟩
    · rw [huid]
      exact hretired
    · rw [(hother _ hdiff).2]
      exact h.retired b' i' hi'
  · intro b' i' hi'
    rcases hold b' i' hi' with ⟨rfl, rfl⟩ | ⟨-, hi', -⟩
    · rw [hlive]
      exact h.live b' i hi
    · exact h.live b' i' hi'
  · intro b' i' hi'
    rw [hnext]
    rcases hold b' i' hi' with ⟨rfl, rfl⟩ | ⟨-, hi', -⟩
    · rw [huid]
      exact h.uid b' i hi
    · exact h.uid b' i' hi'
  · intro b₁ b₂ i₁ i₂ hi₁ hi₂ heq
    rcases hold b₁ i₁ hi₁ with ⟨rfl, rfl⟩ | ⟨-, hi₁, hdiff₁⟩
    · rcases hold b₂ i₂ hi₂ with ⟨hb₂, -⟩ | ⟨-, -, hdiff₂⟩
      · exact hb₂.symm
      · exact absurd (heq.symm.trans huid) hdiff₂
    · rcases hold b₂ i₂ hi₂ with ⟨-, rfl⟩ | ⟨-, hi₂, -⟩
      · exact absurd (heq.trans huid) hdiff₁
      · exact h.uid_inj b₁ b₂ i₁ i₂ hi₁ hi₂ heq
  · intro n hn
    exact h.threads n (hthreads ▸ hn)
  · intro b' n hn
    have hmem : n ∈ s.queueOf b' := by
      by_cases hne : b' = b
      · rw [hne] at hn ⊢
        exact hqueued hn
      · rwa [hqueue b' hne] at hn
    obtain ⟨hblock, hacc, i', hi', hsame⟩ := h.queued b' n hmem
    obtain ⟨i'', hi'', heq⟩ := hkept b' i' hi'
    exact ⟨hblock, hacc, i'', hi'', by rw [heq, hsame]⟩
  · intro c x hx
    obtain ⟨hlt, hplain, hwarp⟩ := hslots c x hx
    refine ⟨hnext ▸ hlt, hplain, fun hacc => ?_⟩
    rcases hwarp hacc with hdone | ⟨i', hi', hsame⟩
    · exact Or.inl hdone
    · obtain ⟨i'', hi'', heq⟩ := hkept _ i' hi'
      exact Or.inr ⟨i'', hi'', by rw [heq, hsame]⟩
  · rw [hnext]
    exact h.nextUid

/-- A step that removes the data of one block keeps the books right, when no warp of the block waits
or runs any more and the warps of the others are counted as before. -/
theorem BlockBooks.of_remove (h : BlockBooks k s) {s' : ProcManager} {b : ℕ} {i : BlockInfo}
    (hi : s.info b = some i)
    (hinfo : ∀ b', s'.info b' = if b' = b then none else s.info b')
    (hother : ∀ u, u ≠ i.uid →
      (dispatchedCount k s' fun x => x.node.uid = u) =
          dispatchedCount k s (fun x => x.node.uid = u) ∧
        (dispatchedCount k s' fun x => x.finished && x.node.uid = u) =
          dispatchedCount k s fun x => x.finished && x.node.uid = u)
    (hqueue : ∀ b', s'.queueOf b' = if b' = b then [] else s.queueOf b')
    (hthreads : s'.threadQueue = s.threadQueue) (hnext : s'.nextUid = s.nextUid)
    (hslots : ∀ c, ∀ x ∈ (s'.core c).threads, SlotBooks s x)
    (hidle : ∀ c, ∀ x ∈ (s'.core c).threads, x.node.uid = i.uid → x.finished = true) :
    BlockBooks k s' := by
  have hold : ∀ b' i', s'.info b' = some i' → b' ≠ b ∧ s.info b' = some i' ∧ i'.uid ≠ i.uid := by
    intro b' i' hi'
    rw [hinfo] at hi'
    split at hi'
    case isTrue => cases hi'
    case isFalse hne => exact ⟨hne, hi', fun heq => hne (h.uid_inj b' b i' i hi' hi heq)⟩
  have hkept : ∀ b' i', b' ≠ b → s.info b' = some i' → s'.info b' = some i' := by
    intro b' i' hne hi'
    rw [hinfo, if_neg hne, hi']
  refine ⟨?_, ?_, ?_, ?_, ?_, ?_, ?_, ?_, ?_, ?_⟩
  · intro b' i' hi'
    obtain ⟨hne, hi', -⟩ := hold b' i' hi'
    rw [hqueue, if_neg hne]
    exact h.total b' i' hi'
  · intro b' i' hi'
    obtain ⟨-, hi', hdiff⟩ := hold b' i' hi'
    rw [(hother _ hdiff).1]
    exact h.dispatched b' i' hi'
  · intro b' i' hi'
    obtain ⟨-, hi', hdiff⟩ := hold b' i' hi'
    rw [(hother _ hdiff).2]
    exact h.retired b' i' hi'
  · intro b' i' hi'
    exact h.live b' i' (hold b' i' hi').2.1
  · intro b' i' hi'
    rw [hnext]
    exact h.uid b' i' (hold b' i' hi').2.1
  · intro b₁ b₂ i₁ i₂ hi₁ hi₂
    exact h.uid_inj b₁ b₂ i₁ i₂ (hold b₁ i₁ hi₁).2.1 (hold b₂ i₂ hi₂).2.1
  · intro n hn
    exact h.threads n (hthreads ▸ hn)
  · intro b' n hn
    rw [hqueue] at hn
    split at hn
    case isTrue => cases hn
    case isFalse hne =>
      obtain ⟨hblock, hacc, i', hi', hsame⟩ := h.queued b' n hn
      exact ⟨hblock, hacc, i', hkept b' i' hne hi', hsame⟩
  · intro c x hx
    obtain ⟨hlt, hplain, hwarp⟩ := hslots c x hx
    refine ⟨hnext ▸ hlt, hplain, fun hacc => ?_⟩
    rcases hwarp hacc with hdone | ⟨i', hi', hsame⟩
    · exact Or.inl hdone
    · by_cases hne : x.node.blockId = b
      · rw [hne, hi] at hi'
        obtain rfl := Option.some.inj hi'
        exact Or.inl (hidle c x hx hsame)
      · exact Or.inr ⟨i', hkept _ i' hne hi', hsame⟩
  · rw [hnext]
    exact h.nextUid

/-- The start of a block keeps the books of blocks right. -/
theorem blockBooks_startBlock (h : BlockBooks k s) {b : ℕ} {i : BlockInfo}
    (hi : s.info b = some i) (c : ℕ) : BlockBooks k (s.startBlock c b) := by
  have hthreads : ∀ c', ((s.startBlock c b).core c').threads = (s.core c').threads := by
    intro c'
    rw [core_startBlock]
    split
    case isTrue heq => rw [heq]
    case isFalse => rfl
  have hcount : ∀ p, dispatchedCount k (s.startBlock c b) p = dispatchedCount k s p := by
    intro p
    exact Finset.sum_congr rfl fun c' _ => by rw [hthreads]
  refine h.of_change hi (info_startBlock hi c) rfl rfl (h.total b i hi) ?_ ?_ ?_ ?_ ?_ rfl rfl ?_
  · rw [hcount]
    exact h.dispatched b i hi
  · rw [hcount]
    exact h.retired b i hi
  · exact fun u _ => ⟨hcount _, hcount _⟩
  · exact fun b' _ => rfl
  · exact List.Subset.refl _
  · intro c' x hx
    rw [hthreads] at hx
    exact h.slots c' x hx

/-- A warp that is placed is one more dispatched from its block. -/
theorem info_placeWarp {b : ℕ} {i : BlockInfo} (hi : s.info b = some i) (c : ℕ)
    (node : ThreadNode) (rest : List ThreadNode) (robs b' : ℕ) :
    ((s.takeWarp b rest).place c node robs).info b' = if b' = b then
      some { i with dispatchedThreadNum := i.dispatchedThreadNum + 1 } else s.info b' := by
  have hinfo := info_setInfo (s.setQueue b (some rest)) b b' ((s.info b).map fun i =>
    { i with dispatchedThreadNum := i.dispatchedThreadNum + 1 })
  rw [hi, Option.map_some] at hinfo
  unfold ProcManager.takeWarp
  rw [hi]
  exact hinfo

/-- A warp that is placed leaves the queue of its block. -/
theorem queueOf_placeWarp (s : ProcManager) (c b : ℕ) (node : ThreadNode)
    (rest : List ThreadNode) (robs b' : ℕ) :
    ((s.takeWarp b rest).place c node robs).queueOf b' = if b' = b then rest else s.queueOf b' :=
  queueOf_setQueue s b b' (some rest)

/-- Taking a warp from its queue leaves the cores alone. -/
theorem core_placeWarp (s : ProcManager) (c b : ℕ) (node : ThreadNode)
    (rest : List ThreadNode) (robs c' : ℕ) :
    ((s.takeWarp b rest).place c node robs).core c' = (s.place c node robs).core c' := by
  rw [core_place, core_place]
  rfl

/-- A warp that is placed is one more that is dispatched. -/
theorem dispatchedCount_placeWarp (s : ProcManager) {c : ℕ} (hc : c < k.numSimCores) (b : ℕ)
    (node : ThreadNode) (rest : List ThreadNode) (robs : ℕ) (p : ThreadSlot → Bool) :
    dispatchedCount k ((s.takeWarp b rest).place c node robs) p =
      dispatchedCount k s p + if p ⟨node, false⟩ then 1 else 0 := by
  rw [← dispatchedCount_place s hc node robs]
  exact Finset.sum_congr rfl fun c' _ => by rw [core_placeWarp]

/-- A warp that is placed is one less that waits. -/
theorem waitingCount_placeWarp (s : ProcManager) {b : ℕ} (hb : b < s.mapperSize) (c : ℕ)
    {node : ThreadNode} {rest : List ThreadNode} (hqueue : s.queueOf b = node :: rest)
    (robs : ℕ) (p : ThreadNode → Bool) :
    waitingCount s p = waitingCount ((s.takeWarp b rest).place c node robs) p + if p node then 1 else 0 := by
  have hsum := sum_queue_pop s hb (some rest) p (z := if p node then 1 else 0)
    (by rw [hqueue, List.countP_cons, Option.getD_some])
  unfold waitingCount
  rw [hsum, ← Nat.add_assoc]
  rfl

/-- Placing a warp keeps the tally. -/
theorem tally_placeWarp (h : Tally k s) {b c : ℕ} (hc : c < k.numSimCores) {node : ThreadNode}
    {rest : List ThreadNode} (hqueue : s.queueOf b = node :: rest) (robs : ℕ) :
    Tally k ((s.takeWarp b rest).place c node robs) := by
  have hb : b < s.mapperSize := by
    by_contra hge
    rw [h.noQueue b (not_lt.mp hge)] at hqueue
    cases hqueue
  refine tally_place h robs hc (waitingCount_placeWarp s hb c hqueue robs) rfl rfl rfl fun b' hb' => ?_
  have hne : b' ≠ b := by
    rintro rfl
    exact absurd hb (not_lt.mpr hb')
  have hsame := queueOf_placeWarp s c b node rest robs b'
  rw [if_neg hne] at hsame
  exact hsame.trans (h.noQueue b' hb')

/-- Placing a thread keeps the tally. -/
theorem tally_placeThread (h : Tally k s) {c : ℕ} (hc : c < k.numSimCores) {node : ThreadNode}
    {rest : List ThreadNode} (hqueue : s.threadQueue = node :: rest) (robs : ℕ) :
    Tally k ((s.takeThread rest).place c node robs) := by
  refine tally_place h robs hc (fun p => ?_) rfl rfl rfl h.noQueue
  unfold waitingCount
  rw [hqueue, List.countP_cons]
  exact Nat.add_right_comm _ _ _

/-- Placing a warp keeps the books of blocks right. -/
theorem blockBooks_placeWarp (h : BlockBooks k s) {b c : ℕ} (hc : c < k.numSimCores)
    {node : ThreadNode} {rest : List ThreadNode} (hqueue : s.queueOf b = node :: rest) (robs : ℕ) :
    BlockBooks k ((s.takeWarp b rest).place c node robs) := by
  obtain ⟨hblock, hacc, i, hi, huid⟩ := h.queued b node (by rw [hqueue]; exact List.mem_cons_self ..)
  have hcount := dispatchedCount_placeWarp s hc b node rest robs
  refine h.of_change hi (info_placeWarp hi c node rest robs) rfl rfl ?_ ?_ ?_ ?_ ?_ ?_ rfl rfl ?_
  · have htotal := h.total b i hi
    rw [hqueue, List.length_cons] at htotal
    rw [queueOf_placeWarp, if_pos rfl]
    dsimp only
    omega
  · rw [hcount, if_pos (decide_eq_true huid)]
    exact congrArg (· + 1) (h.dispatched b i hi)
  · rw [hcount, if_neg (by simp), Nat.add_zero]
    exact h.retired b i hi
  · intro u hne
    have hdiff : node.uid ≠ u := fun heq => hne (heq ▸ huid)
    rw [hcount, hcount, if_neg (by simpa using hdiff), if_neg (by simp)]
    exact ⟨rfl, rfl⟩
  · intro b' hne
    rw [queueOf_placeWarp, if_neg hne]
  · rw [queueOf_placeWarp, if_pos rfl, hqueue]
    exact List.subset_cons_self _ _
  · intro c' x hx
    rw [core_placeWarp] at hx
    rcases mem_threads_place hx with hold | ⟨-, rfl⟩
    · exact h.slots c' x hold
    · refine ⟨?_, fun hnot => ?_, fun _ => Or.inr ⟨i, hblock ▸ hi, huid⟩⟩
      · rw [huid]
        exact (h.uid b i hi).2
      · exact absurd (hacc.symm.trans hnot) (by simp)

/-- A thread ends: it finishes, and a warp is retired. -/
def threadEnded (k : ProcKnobs) (s : ProcManager) (c tid : ℕ) (node : ThreadNode) : ProcManager :=
  if node.acc = true then (s.finishThread k c tid node).retireWarp c node
  else s.finishThread k c tid node

/-- The end of a thread is one of its own core only. -/
theorem core_finishThread (s : ProcManager) (c tid : ℕ) (node : ThreadNode) (c' : ℕ) :
    (s.finishThread k c tid node).core c' =
      if c' = c then (s.core c).finish (k.coreType c) tid node else s.core c' := core_setCore ..

/-- The threads of a core after one has ended. -/
theorem mem_threads_finish {c tid : ℕ} {node : ThreadNode} {c' : ℕ} {x : ThreadSlot}
    (hx : x ∈ ((s.finishThread k c tid node).core c').threads) :
    x ∈ (s.core c').threads ∨ c' = c ∧ x = ⟨node, true⟩ := by
  rw [core_finishThread] at hx
  split at hx
  case isTrue heq =>
    rcases List.mem_or_eq_of_mem_set hx with hold | hnew
    · exact Or.inl (heq ▸ hold)
    · exact Or.inr ⟨heq, hnew⟩
  case isFalse => exact Or.inl hx

/-- The counts of a block when one of its warps ends. -/
theorem counts_of_end (htally : Tally k s) {c tid : ℕ} {node : ThreadNode}
    (hslot : (s.core c).threads[tid]? = some ⟨node, false⟩) (u : ℕ) :
    (dispatchedCount k (s.finishThread k c tid node) fun x => x.node.uid = u) =
        (dispatchedCount k s fun x => x.node.uid = u) ∧
      (dispatchedCount k (s.finishThread k c tid node) fun x => x.finished && x.node.uid = u) =
        (dispatchedCount k s fun x => x.finished && x.node.uid = u) +
          if node.uid = u then 1 else 0 := by
  have hc : c < k.numSimCores := by
    by_contra hge
    rw [htally.noCore c (not_lt.mp hge)] at hslot
    simp at hslot
  constructor
  · rw [dispatchedCount_finish s hc hslot (z := 0) (fun x => x.node.uid = u) rfl, Nat.add_zero]
  · refine dispatchedCount_finish s hc hslot (fun x => x.finished && x.node.uid = u) ?_
    simp

/-- Every thread on a core is in the books when one of them has ended, the one that ended
included. -/
theorem slotBooks_finish (h : BlockBooks k s) {c tid : ℕ} {node : ThreadNode}
    (hslot : (s.core c).threads[tid]? = some ⟨node, false⟩) (c' : ℕ) :
    ∀ x ∈ ((s.finishThread k c tid node).core c').threads, SlotBooks s x := by
  intro x hx
  obtain ⟨hlt, hplain, -⟩ := h.slots c _ (List.mem_of_getElem? hslot)
  rcases mem_threads_finish hx with hold | ⟨-, rfl⟩
  · exact h.slots c' x hold
  · exact ⟨hlt, hplain, fun _ => Or.inl rfl⟩

/-- The threads counted by a number other than that of the thread that ended are as before. -/
theorem counts_of_end_ne (htally : Tally k s) {c tid : ℕ} {node : ThreadNode}
    (hslot : (s.core c).threads[tid]? = some ⟨node, false⟩) {u : ℕ} (hne : node.uid ≠ u) :
    (dispatchedCount k (s.finishThread k c tid node) fun x => x.node.uid = u) =
        dispatchedCount k s (fun x => x.node.uid = u) ∧
      (dispatchedCount k (s.finishThread k c tid node) fun x => x.finished && x.node.uid = u) =
        dispatchedCount k s fun x => x.finished && x.node.uid = u := by
  obtain ⟨hsame, hmore⟩ := counts_of_end htally hslot u
  rw [if_neg hne, Nat.add_zero] at hmore
  exact ⟨hsame, hmore⟩

/-- The end of a thread of a CPU application keeps the books of blocks right. -/
theorem blockBooks_endThread (htally : Tally k s) (h : BlockBooks k s) {c tid : ℕ}
    {node : ThreadNode} (hslot : (s.core c).threads[tid]? = some ⟨node, false⟩)
    (huid : node.uid = 0) : BlockBooks k (s.finishThread k c tid node) := by
  have hcounts : ∀ b i, s.info b = some i → node.uid ≠ i.uid := by
    intro b i hi
    rw [huid]
    exact (h.uid b i hi).1.ne
  refine ⟨h.total, ?_, ?_, h.live, h.uid, h.uid_inj, h.threads, h.queued,
    slotBooks_finish h hslot, h.nextUid⟩
  · intro b i hi
    rw [(counts_of_end_ne htally hslot (hcounts b i hi)).1]
    exact h.dispatched b i hi
  · intro b i hi
    rw [(counts_of_end_ne htally hslot (hcounts b i hi)).2]
    exact h.retired b i hi

/-- A warp that ends and is not the last one of its block keeps the books of blocks right. -/
theorem blockBooks_retireOne (htally : Tally k s) (h : BlockBooks k s) {c tid : ℕ}
    {node : ThreadNode} (hslot : (s.core c).threads[tid]? = some ⟨node, false⟩) {i : BlockInfo}
    (hi : s.info node.blockId = some i) (huid : node.uid = i.uid) :
    BlockBooks k ((s.finishThread k c tid node).setInfo node.blockId
      (some { i with retiredThreadNum := i.retiredThreadNum + 1 })) := by
  obtain ⟨hsame, hmore⟩ := counts_of_end htally hslot i.uid
  rw [if_pos huid] at hmore
  refine h.of_change hi (fun b' => Function.update_apply ..) rfl rfl (h.total _ i hi) ?_ ?_ ?_ ?_ ?_
    rfl rfl (slotBooks_finish h hslot)
  · exact (h.dispatched _ i hi).trans hsame.symm
  · exact (congrArg (· + 1) (h.retired _ i hi)).trans hmore.symm
  · exact fun u hne => counts_of_end_ne htally hslot fun heq => hne (heq ▸ huid)
  · exact fun b' _ => rfl
  · exact List.Subset.refl _

/-- A core that counts its blocks anew is otherwise as it was, and so are the others. -/
theorem core_updateBlockNum (core : ℕ → SchedCore) (c : ℕ) (num : ℤ) (c' : ℕ) :
    Function.update core c { core c with runningBlockNum := num } c' =
      { core c' with
        runningBlockNum := if c' = c then num else (core c').runningBlockNum } := by
  rw [Function.update_apply]
  split
  case isTrue heq => rw [heq]
  case isFalse => rfl

/-- No warp of a block runs once as many have retired as it has. -/
theorem finished_of_last (htally : Tally k s) (h : BlockBooks k s) {c tid : ℕ}
    {node : ThreadNode} (hslot : (s.core c).threads[tid]? = some ⟨node, false⟩) {i : BlockInfo}
    (hi : s.info node.blockId = some i) (huid : node.uid = i.uid)
    (hlast : i.retiredThreadNum + 1 = i.totalThreadNum) {c' : ℕ} {x : ThreadSlot}
    (hx : x ∈ ((s.finishThread k c tid node).core c').threads) (hx' : x.node.uid = i.uid) :
    x.finished = true := by
  obtain ⟨hsame, hmore⟩ := counts_of_end htally hslot i.uid
  rw [if_pos huid] at hmore
  have htotal := h.total _ i hi
  have hdispatched := h.dispatched _ i hi
  have hretired := h.retired _ i hi
  have hsplit : dispatchedCount k (s.finishThread k c tid node) (fun x => x.node.uid = i.uid) =
      (dispatchedCount k (s.finishThread k c tid node) fun x =>
        x.finished && x.node.uid = i.uid) +
      dispatchedCount k (s.finishThread k c tid node) fun x =>
        !x.finished && x.node.uid = i.uid := dispatchedCount_split _
  have hc' : c' < k.numSimCores := by
    by_contra hge
    have hnone := htally.noCore c' (not_lt.mp hge)
    rcases mem_threads_finish hx with hold | ⟨hcc, -⟩
    · rw [hnone] at hold
      cases hold
    · rw [hcc] at hnone
      have hmem := List.mem_of_getElem? hslot
      rw [hnone] at hmem
      cases hmem
  by_contra hnot
  have hrun : x.finished = false := Bool.eq_false_iff.mpr hnot
  have hpos := dispatchedCount_pos (p := fun x => !x.finished && x.node.uid = i.uid) hc' hx
    (by simp [hrun, hx'])
  omega

/-- A block whose warps have all retired has none that waits. -/
theorem queueOf_nil_of_last (htally : Tally k s) (h : BlockBooks k s) {c tid : ℕ}
    {node : ThreadNode} (hslot : (s.core c).threads[tid]? = some ⟨node, false⟩) {i : BlockInfo}
    (hi : s.info node.blockId = some i) (huid : node.uid = i.uid)
    (hlast : i.retiredThreadNum + 1 = i.totalThreadNum) : s.queueOf node.blockId = [] := by
  obtain ⟨hsame, hmore⟩ := counts_of_end htally hslot i.uid
  rw [if_pos huid] at hmore
  have htotal := h.total _ i hi
  have hdispatched := h.dispatched _ i hi
  have hretired := h.retired _ i hi
  have hle : (dispatchedCount k (s.finishThread k c tid node) fun x =>
      x.finished && x.node.uid = i.uid) ≤
      dispatchedCount k (s.finishThread k c tid node) fun x => x.node.uid = i.uid :=
    dispatchedCount_mono fun x hx => (Bool.and_eq_true_iff.mp hx).2
  have hlen : (s.queueOf node.blockId).length = 0 := by omega
  exact List.eq_nil_of_length_eq_zero hlen

/-- The last warp of a block that ends takes the data of the block away and keeps the books of
blocks right. -/
theorem blockBooks_retireLast (htally : Tally k s) (h : BlockBooks k s) {c tid : ℕ}
    {node : ThreadNode} (hslot : (s.core c).threads[tid]? = some ⟨node, false⟩) {i : BlockInfo}
    (hi : s.info node.blockId = some i) (huid : node.uid = i.uid)
    (hlast : i.retiredThreadNum + 1 = i.totalThreadNum) :
    BlockBooks k ((s.finishThread k c tid node).retireWarp c node) := by
  set m := s.finishThread k c tid node with hm
  have hretire : m.retireWarp c node =
      { ((m.setInfo node.blockId none).setQueue node.blockId none).setCore c
          { m.core c with runningBlockNum := (m.core c).runningBlockNum - 1 } with
        blockList := Function.update m.blockList node.process
          (Function.update (m.blockList node.process) node.blockId false) } := by
    have hinfo : m.info node.blockId = some i := hi
    simp only [ProcManager.retireWarp, hinfo, if_pos hlast]
  rw [hretire]
  have hthreads := fun c' => congrArg SchedCore.threads
    (core_updateBlockNum m.core c ((m.core c).runningBlockNum - 1) c')
  have hcount : ∀ p, (∑ c' ∈ Finset.range k.numSimCores, (Function.update m.core c
      { m.core c with runningBlockNum := (m.core c).runningBlockNum - 1 } c').threads.countP p) =
      dispatchedCount k m p := fun p => Finset.sum_congr rfl fun c' _ => by rw [hthreads]
  refine h.of_remove hi (fun b' => Function.update_apply ..) (fun u hne => ?_)
    (fun b' => queueOf_setQueue s node.blockId b' none) rfl rfl (fun c' x hx => ?_)
    (fun c' x hx => ?_)
  · obtain ⟨hsame, hmore⟩ := counts_of_end_ne htally hslot (u := u) fun heq => hne (heq ▸ huid)
    exact ⟨(hcount _).trans hsame, (hcount _).trans hmore⟩
  · exact slotBooks_finish h hslot c' x ((hthreads c') ▸ hx)
  · exact finished_of_last htally h hslot hi huid hlast ((hthreads c') ▸ hx)

/-- The end of a thread keeps the books of blocks right, and after the last one no warp waits. -/
theorem blockBooks_threadEnded (htally : Tally k s) (h : BlockBooks k s) {c tid : ℕ}
    {node : ThreadNode} (hslot : (s.core c).threads[tid]? = some ⟨node, false⟩) :
    BlockBooks k (threadEnded k s c tid node) ∧
      ∀ i, s.info node.blockId = some i → node.acc = true →
        i.retiredThreadNum + 1 = i.totalThreadNum → s.queueOf node.blockId = [] := by
  obtain ⟨-, hplain, hwarp⟩ := h.slots c _ (List.mem_of_getElem? hslot)
  unfold threadEnded
  cases hacc : node.acc with
  | false =>
    rw [if_neg (by simp)]
    exact ⟨blockBooks_endThread htally h hslot (hplain hacc),
      fun _ _ hnot => absurd hnot (by simp)⟩
  | true =>
    rw [if_pos rfl]
    obtain ⟨i, hi, huid⟩ := (hwarp hacc).resolve_left (by simp)
    have hi : s.info node.blockId = some i := hi
    have huid : node.uid = i.uid := huid
    refine ⟨?_, fun i' hi' _ hlast => ?_⟩
    · by_cases hlast : i.retiredThreadNum + 1 = i.totalThreadNum
      · exact blockBooks_retireLast htally h hslot hi huid hlast
      · have hinfo : (s.finishThread k c tid node).info node.blockId = some i := hi
        simp only [ProcManager.retireWarp, hinfo, if_neg hlast]
        exact blockBooks_retireOne htally h hslot hi huid
    · rw [hi] at hi'
      obtain rfl := Option.some.inj hi'
      exact queueOf_nil_of_last htally h hslot hi huid hlast

end MacSim.Analysis
