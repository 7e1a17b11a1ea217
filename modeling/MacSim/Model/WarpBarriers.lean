import MacSim.Model.FetchThreads

/-!
# The barriers of the warps of a GPU core

A warp whose decoder has delivered a barrier is not fetched from until the barrier is released.
The warps of a block count their barriers as these retire; the warp that retires the last one
puts the block on a list, and the frontend, after the fetch stage of a later cycle, releases the
warps of the blocks on that list.

Which uops a decoder delivers for a warp, what the instruction cache, the branches and the loads
say, and when a uop reaches the head of the reorder buffer of its warp are arguments of the
steps.
-/

set_option autoImplicit false

namespace MacSim.Model

/-- What is read of a uop: whether its type is `BAR_FETCH`, and whether it is the first uop of
its instruction. -/
structure WarpUop where
  barFetch : Bool
  isitBom : Bool
  deriving DecidableEq

/-- A warp with its fetch data.  `uops` are those that the decoder delivers, up to the one that
has `m_last_uop`; the first `fetched` of them were pushed into the frontend queue, and the first
`retired` have retired. -/
structure Warp where
  blockId : ℕ
  uops : List WarpUop
  fetched : ℕ
  retired : ℕ
  instsRetired : ℕ
  fetchBlocked : Bool

/-- An entry of `m_sync_info`. -/
structure SyncThread where
  syncCount : ℕ
  numThreadsInBlock : ℕ

/-- The counts of `block_schedule_info_s`. -/
structure BlockCounts where
  totalThreadNum : ℕ
  dispatchedThreadNum : ℕ
  retiredThreadNum : ℕ

/-- What the frontend prints when a release finds less than it expects. -/
inductive SyncMessage where
  | fetchNotBlocked (tid : ℕ)
  | syncInfoNotFound (block : ℕ)
  deriving DecidableEq

/-- An entry that is looked up and not there, or the failed assertion of the forward progress. -/
inductive BarFault where
  | noSyncInfo
  | noBlockInfo
  | noProgress
  deriving DecidableEq

/-- The knobs of a core. -/
structure BarKnobs where
  fetchRatio : ℕ
  numWarpScheduler : ℕ
  width : ℕ
  fetchWidth : ℕ
  feSize : ℕ
  maxInsts : ℕ

/-- What one turn of the warp schedulers finds.  `checks` has what `fetch_rr` asks, but for the
barriers.  `ifetch` says that the chosen warp is in `FRONTEND_MODE_IFETCH`, that no branch of it
is unresolved and that its line is in the instruction cache. -/
structure FetchTurn where
  checks : FetchChecks
  feStall : Bool
  ifetch : Bool

/-- What a cycle of the frontend finds. -/
structure FrontendCycle where
  feRunning : Bool
  turns : ℕ → FetchTurn

/-- A core with its warps.  The queue of the frontend has the warp of each uop. -/
structure BarCore where
  fetch : FetchCore
  warp : ℕ → Warp
  blockInfo : ℕ → Option BlockCounts
  syncInfo : ℕ → Option SyncThread
  syncDone : List ℕ
  fetchModulo : ℕ
  queue : List ℕ
  messages : List SyncMessage

namespace BarCore

/-- A new core.  The schedule information of block 0 is there from the start.
SRCLINE: frontend.cc:141-168, config.h:453-464, macsim.cc:244-246 -/
def new (k : BarKnobs) : BarCore where
  fetch := .new
  warp := fun _ =>
    { blockId := 0, uops := [], fetched := 0, retired := 0, instsRetired := 0
      fetchBlocked := false }
  blockInfo := fun b => if b = 0 then some ⟨0, 0, 0⟩ else none
  syncInfo := fun _ => none
  syncDone := []
  fetchModulo := k.fetchRatio - 1
  queue := []
  messages := []

def setWarp (s : BarCore) (tid : ℕ) (w : Warp) : BarCore :=
  { s with warp := Function.update s.warp tid w }

/-- `m_q_frontend->space`. -/
def space (k : BarKnobs) (s : BarCore) : ℕ := k.feSize - s.queue.length

/-! ## Blocks and warps -/

/-- `process_manager_c::insert_block`: one more warp of a block waits.
SRCLINE: process_manager.cc:1024-1034 -/
def insertBlock (s : BarCore) (b : ℕ) : BarCore :=
  let i := (s.blockInfo b).getD ⟨0, 0, 0⟩
  { s with
    blockInfo := Function.update s.blockInfo b
      (some { i with totalThreadNum := i.totalThreadNum + 1 }) }

/-- A waiting warp is dispatched to the core.
SRCLINE: process_manager.cc:1237-1254, frontend.cc:112-131 -/
def createThread (s : BarCore) (b : ℕ) (uops : List WarpUop) : BarCore :=
  let i := (s.blockInfo b).getD ⟨0, 0, 0⟩
  { s with
    fetch := s.fetch.createTraceInfo
    warp := Function.update s.warp s.fetch.uniqueScheduledThreadNum
      { blockId := b, uops := uops, fetched := 0, retired := 0, instsRetired := 0
        fetchBlocked := false }
    blockInfo := Function.update s.blockInfo b
      (some { i with dispatchedThreadNum := i.dispatchedThreadNum + 1 }) }

/-! ## Fetch -/

/-- The decoder has read a barrier: the warp is blocked, and the first barrier of a block makes
the entry of the block.
SRCLINE: trace_read_gpu.cc:901-924 -/
def reachBarrier (s : BarCore) (tid : ℕ) : Except BarFault BarCore :=
  let b := (s.warp tid).blockId
  let s := s.setWarp tid { s.warp tid with fetchBlocked := true }
  match s.syncInfo b with
  | some _ => .ok s
  | none =>
      match s.blockInfo b with
      | none => .error .noBlockInfo
      | some i => .ok { s with
          syncInfo := Function.update s.syncInfo b (some ⟨0, i.totalThreadNum⟩) }

/-- The decoder delivers a uop.  The last uop of the warp ends the fetch.
SRCLINE: trace_read_gpu.cc:786-899 -/
def takeUop (s : BarCore) (tid : ℕ) : BarCore :=
  let w := s.warp tid
  { s with
    warp := Function.update s.warp tid { w with fetched := w.fetched + 1 }
    fetch := if w.fetched + 1 = w.uops.length then s.fetch.endFetch tid else s.fetch }

/-- `gpu_decoder_c::get_uops_from_traces`; `none` when there is no uop.
SRCLINE: trace_read_gpu.cc:765-924 -/
def getUops (s : BarCore) (tid : ℕ) : Except BarFault (Option BarCore) :=
  if s.fetch.fetchEnded tid then .ok none
  else
    match (s.warp tid).uops[(s.warp tid).fetched]? with
    | none => .ok none
    | some uop => do
        let s := s.takeUop tid
        let s ← if uop.barFetch then s.reachBarrier tid else .ok s
        return some s

/-- The loop of `process_ifetch`.  Each turn pushes a uop, so that the room in the queue bounds
the turns.
SRCLINE: frontend.cc:454-574 -/
def fetchLoop (k : BarKnobs) (tid : ℕ) : ℕ → ℕ → BarCore → Except BarFault BarCore
  | 0, _, s => .ok s
  | room + 1, fetchedUops, s => do
      match ← s.getUops tid with
      | none => return s
      | some s =>
          let s := { s with queue := s.queue ++ [tid] }
          if k.width ≤ fetchedUops + 1 then return s
          else fetchLoop k tid room (fetchedUops + 1) s

/-- `fetch_rr` with the barriers of the warps.
SRCLINE: frontend.cc:903-910 -/
def select (s : BarCore) (t : FetchTurn) : Option ℕ × BarCore :=
  let x := s.fetch.fetchRr { t.checks with fetchBlocked := fun tid => (s.warp tid).fetchBlocked }
  (x.1, { s with fetch := x.2 })

/-- The uops of the chosen warp are fetched.
SRCLINE: frontend.cc:233-299, 345-581 -/
def fetchFrom (k : BarKnobs) (t : FetchTurn) (tid : ℕ) (s : BarCore) : Except BarFault BarCore :=
  if !t.feStall && decide (k.fetchWidth < s.space k) then
    if t.ifetch then s.fetchLoop k tid (s.space k) 0 else .ok s
  else .ok { s with fetch := { s.fetch with lastFetchTidFailed := true } }

/-- The turns of the warp schedulers.  The same warp is not chosen twice in a row.
SRCLINE: frontend.cc:207-301 -/
def fetchTurns (k : BarKnobs) : List FetchTurn → Option ℕ → BarCore → Except BarFault BarCore
  | [], _, s => .ok s
  | t :: ts, prev, s =>
      match s.select t with
      | (none, s) => .ok s
      | (some tid, s) =>
          if prev = some tid then .ok s
          else do
            let s ← s.fetchFrom k t tid
            fetchTurns k ts (some tid) s

/-! ## Release -/

/-- SRCLINE: frontend.cc:319-333 -/
def releaseWarp (b : ℕ) (s : BarCore) (tid : ℕ) : BarCore :=
  let w := s.warp tid
  if s.fetch.fetchEnded tid || s.fetch.threadReachEnd tid then s
  else if w.blockId = b then
    { s with
      messages := if w.fetchBlocked then s.messages else s.messages ++ [.fetchNotBlocked tid]
      warp := Function.update s.warp tid { w with fetchBlocked := false } }
  else s

/-- SRCLINE: frontend.cc:314-338 -/
def releaseBlock (s : BarCore) (b : ℕ) : BarCore :=
  let s := s.fetch.visited.foldl (releaseWarp b) s
  match s.syncInfo b with
  | some _ => { s with syncInfo := Function.update s.syncInfo b none }
  | none => { s with messages := s.messages ++ [.syncInfoNotFound b] }

/-- The blocks whose warps have all retired their barrier.
SRCLINE: frontend.cc:303-341 -/
def release (s : BarCore) : BarCore := s.syncDone.foldl releaseBlock { s with syncDone := [] }

/-- The cycle gets to the fetch stage.
SRCLINE: frontend.cc:184-202 -/
def fetches (k : BarKnobs) (s : BarCore) (c : FrontendCycle) : Bool :=
  c.feRunning && decide (s.fetch.fetchingThreadNum ≠ 0) &&
    decide (k.fetchRatio = 1 ∨ s.fetchModulo + 1 = k.fetchRatio)

/-- The counter of the fetch ratio in a cycle.
SRCLINE: frontend.cc:184-202 -/
def advanceModulo (k : BarKnobs) (s : BarCore) (c : FrontendCycle) : BarCore :=
  if !c.feRunning || decide (s.fetch.fetchingThreadNum = 0) || decide (k.fetchRatio = 1) then s
  else if s.fetchModulo + 1 = k.fetchRatio then { s with fetchModulo := 0 }
  else { s with fetchModulo := s.fetchModulo + 1 }

/-- The turns of a cycle. -/
def turnsOf (k : BarKnobs) (c : FrontendCycle) : List FetchTurn :=
  (List.range k.numWarpScheduler).map c.turns

/-- `frontend_c::run_a_cycle` of a GPU core.
SRCLINE: frontend.cc:175-342 -/
def runACycle (k : BarKnobs) (s : BarCore) (c : FrontendCycle) : Except BarFault BarCore :=
  let s' := s.advanceModulo k c
  if s.fetches k c then do
    let s' ← s'.fetchTurns k (turnsOf k c) none
    return s'.release
  else .ok s'

/-! ## Retirement -/

/-- `frontend_c::synch_thread`.
SRCLINE: frontend.cc:990-999 -/
def synchThread (s : BarCore) (b : ℕ) : Except BarFault BarCore :=
  match s.syncInfo b with
  | none => .error .noSyncInfo
  | some e => .ok { s with
      syncInfo := Function.update s.syncInfo b (some { e with syncCount := e.syncCount + 1 })
      syncDone := if e.syncCount + 1 = e.numThreadsInBlock then s.syncDone ++ [b]
        else s.syncDone }

/-- The warp ends.  The information of a block whose warps have all ended is deleted.
SRCLINE: retire.cc:295-316, process_manager.cc:850-921 -/
def terminateThread (s : BarCore) (tid : ℕ) : Except BarFault BarCore :=
  let b := (s.warp tid).blockId
  match s.fetch.terminate tid with
  | none => .error .noProgress
  | some fetch =>
      match s.blockInfo b with
      | none => .error .noBlockInfo
      | some i => .ok { s with
          fetch := fetch
          blockInfo := Function.update s.blockInfo b
            (if i.retiredThreadNum + 1 = i.totalThreadNum then none
              else some { i with retiredThreadNum := i.retiredThreadNum + 1 }) }

/-- The next uop of a warp retires.
SRCLINE: retire.cc:268-337 -/
def retire (k : BarKnobs) (s : BarCore) (tid : ℕ) : Except BarFault BarCore :=
  let w := s.warp tid
  match w.uops[w.retired]? with
  | none => .ok s
  | some uop => do
      let insts := if uop.isitBom then w.instsRetired + 1 else w.instsRetired
      let s := s.setWarp tid { w with retired := w.retired + 1, instsRetired := insts }
      let s ← if uop.barFetch then s.synchThread w.blockId else .ok s
      if w.retired + 1 = w.uops.length ∨ k.maxInsts ≤ insts then s.terminateThread tid else .ok s

end BarCore

/-! ## Runs -/

/-- What can happen to a core and its warps. -/
inductive BarAction where
  | insertBlock (b : ℕ)
  | createThread (b : ℕ) (uops : List WarpUop)
  | runACycle (c : FrontendCycle)
  /-- a uop leaves the queue of the frontend -/
  | dequeue
  | retire (tid : ℕ)

namespace BarCore

/-- One action. -/
def step (k : BarKnobs) (s : BarCore) : BarAction → Except BarFault BarCore
  | .insertBlock b => .ok (s.insertBlock b)
  | .createThread b uops => .ok (s.createThread b uops)
  | .runACycle c => s.runACycle k c
  | .dequeue => .ok { s with queue := s.queue.tail }
  | .retire tid => s.retire k tid

/-- The core can take the action: a warp that is dispatched has waited, and every warp has a uop;
a uop that retires has left the queue of the frontend, and the reorder buffer of a warp that has
ended is freed.
SRCLINE: process_manager.cc:1317-1337, trace_read_gpu.cc:860, core.cc:683 -/
def Offered (s : BarCore) : BarAction → Prop
  | .createThread b uops => uops ≠ [] ∧
      ∃ i, s.blockInfo b = some i ∧ i.dispatchedThreadNum < i.totalThreadNum
  | .retire tid => tid < s.fetch.uniqueScheduledThreadNum ∧
      s.fetch.threadReachEnd tid = false ∧
      (s.warp tid).retired + s.queue.count tid < (s.warp tid).fetched
  | _ => True

/-- The states of a core in every run whose steps meet `P`. -/
inductive RunOf (k : BarKnobs) (P : BarCore → BarAction → Prop) : BarCore → Prop
  | new : RunOf k P (new k)
  | step {s s' : BarCore} (a : BarAction) (h : RunOf k P s) (ha : s.Offered a) (hp : P s a)
      (hs : s.step k a = .ok s') : RunOf k P s'

end BarCore

end MacSim.Model
