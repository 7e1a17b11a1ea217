import Mathlib.Data.Int.Notation
import Mathlib.Data.Nat.Notation
import Mathlib.Logic.Function.Basic
import MacSim.Model.FetchThreads

/-!
# Dispatching threads and thread blocks

The process manager keeps the threads that wait for a core: those of CPU applications in one
queue, the warps of a GPU application in one queue for each block.  Scheduling goes through the
cores and hands them threads, a block at a time on the GPU cores.

The processes are set up and no process ends; what a thread does between its dispatch and its
termination is not modelled.  `none` is a failed assertion, a null pointer or a division by zero,
where the program stops.  The assertion that a thread has an entry among the statistics belongs
to the set-up.  Threads, blocks and their schedule information carry numbers as records.
-/

set_option autoImplicit false

namespace MacSim.Model

/-- The core types, in the order of their names. -/
inductive CoreType where
  | a64
  | igpu
  | ptx
  | x86
  deriving DecidableEq, Repr

/-- The types whose cores keep their reorder buffers in an `smc_rob_c`.
SRCLINE: core.cc:170-178, 649-651 -/
def CoreType.hasGpuRob (t : CoreType) : Bool := t = .ptx || t = .igpu

/-- `thread_trace_info_node_s`. -/
structure ThreadNode where
  process : ℕ
  tid : ℕ
  main : Bool
  acc : Bool
  blockId : ℕ
  /-- records: the number of the node -/
  id : ℕ
  /-- records: the number of the schedule information it is counted in, 0 without one -/
  uid : ℕ
  deriving DecidableEq

/-- An entry of `m_thread_trace_info` with `m_thread_finished`. -/
structure ThreadSlot where
  node : ThreadNode
  finished : Bool
  deriving DecidableEq

/-- `block_schedule_info_s`. -/
structure BlockInfo where
  startToFetch : Bool
  dispatchedCoreId : Option ℕ
  retired : Bool
  dispatchedThreadNum : ℕ
  retiredThreadNum : ℕ
  traceExist : Bool
  totalThreadNum : ℕ
  /-- records: the number of this information -/
  uid : ℕ
  deriving DecidableEq

/-- SRCLINE: process_manager.cc:189-200 -/
def BlockInfo.init (uid : ℕ) : BlockInfo where
  startToFetch := false
  dispatchedCoreId := none
  retired := false
  dispatchedThreadNum := 0
  retiredThreadNum := 0
  traceExist := false
  totalThreadNum := 0
  uid := uid

/-- What the process manager uses of a core. -/
structure SchedCore where
  /-- by `m_unique_scheduled_thread_num`, which is the length -/
  threads : List ThreadSlot
  runningThreadNum : ℕ
  runningBlockNum : ℤ
  fetchingBlockId : Option ℕ
  applId : ℕ
  /-- the length of the free list of the `smc_rob_c` -/
  freeRobs : ℕ
  lastTerminatedTid : ℕ
  terminatedTid : List ℕ

/-- A thread has ended: its data is deallocated, and its reorder buffer is free again.

SRCLINE: process_manager.cc:860-867, core.cc:655-683, rob_smc.cc:163-170 -/
def SchedCore.finish (x : SchedCore) (t : CoreType) (tid : ℕ) (node : ThreadNode) : SchedCore :=
  let ids := tid :: x.terminatedTid.filter (· ≠ tid)
  let last := FetchCore.advanceTid ids.length x.lastTerminatedTid ids
  { x with
    threads := x.threads.set tid ⟨node, true⟩
    runningThreadNum := x.runningThreadNum - 1
    freeRobs := if t.hasGpuRob = true then x.freeRobs + 1 else x.freeRobs
    lastTerminatedTid := last.1
    terminatedTid := last.2 }

/-- The thread that ends is replaced by its node. -/
@[simp] theorem SchedCore.finish_threads (x : SchedCore) (t : CoreType) (tid : ℕ)
    (node : ThreadNode) : (x.finish t tid node).threads = x.threads.set tid ⟨node, true⟩ := rfl

/-- One thread less is running. -/
@[simp] theorem SchedCore.finish_runningThreadNum (x : SchedCore) (t : CoreType) (tid : ℕ)
    (node : ThreadNode) : (x.finish t tid node).runningThreadNum = x.runningThreadNum - 1 := rfl

/-- The knobs, the cores and the processes. -/
structure ProcKnobs where
  numSimCores : ℕ
  coreType : ℕ → CoreType
  maxThreadsPerCore : ℕ → ℕ
  maxBlock : ℕ → ℕ
  acc : ℕ → Bool
  coreList : ℕ → List ℕ
  kernelBlockStartCount : ℕ → ℕ
  /-- the application that the set-up gives to a core -/
  coreAppl : ℕ → ℕ
  maxNumCorePerAppl : ℕ
  assignBlocksGreedilyInitially : Bool
  /-- `KNOB_CORE_THREAD_SCHED` is `greedy`, otherwise `balanced` -/
  greedy : Bool
  routerPlacement : ℕ
  coreEnableBegin : ℕ
  coreEnableEnd : ℕ

/-- The state of the process manager. -/
structure ProcManager where
  /-- `m_block_id_mapper` with its size -/
  mapper : ℕ → ℕ → Option ℕ
  mapperSize : ℕ
  blockList : ℕ → ℕ → Bool
  info : ℕ → Option BlockInfo
  blockQueue : ℕ → Option (List ThreadNode)
  threadQueue : List ThreadNode
  numWaitingDispatchedThreads : ℕ
  core : ℕ → SchedCore
  /-- records: the nodes inserted so far -/
  inserted : ℕ
  /-- records: the number of the next schedule information -/
  nextUid : ℕ

namespace ProcManager

/-- The schedule information of block 0 is there from the start.

SRCLINE: process_manager.cc:216-224, macsim.cc:244-246, core.cc:112-138, rob_smc.cc:61-91 -/
def init (k : ProcKnobs) : ProcManager where
  mapper := fun _ _ => none
  mapperSize := 0
  blockList := fun _ _ => false
  info := fun b => if b = 0 then some (BlockInfo.init 1) else none
  blockQueue := fun _ => none
  threadQueue := []
  numWaitingDispatchedThreads := 0
  core := fun c =>
    { threads := [], runningThreadNum := 0, runningBlockNum := 0, fetchingBlockId := none
      applId := k.coreAppl c
      freeRobs := if (k.coreType c).hasGpuRob then k.maxThreadsPerCore c else 0
      lastTerminatedTid := 0, terminatedTid := [] }
  inserted := 0
  nextUid := 2

def setCore (s : ProcManager) (c : ℕ) (x : SchedCore) : ProcManager :=
  { s with core := Function.update s.core c x }

def setInfo (s : ProcManager) (b : ℕ) (i : Option BlockInfo) : ProcManager :=
  { s with info := Function.update s.info b i }

def setQueue (s : ProcManager) (b : ℕ) (q : Option (List ThreadNode)) : ProcManager :=
  { s with blockQueue := Function.update s.blockQueue b q }

/-- The warps that wait in the queue of a block. -/
def queueOf (s : ProcManager) (b : ℕ) : List ThreadNode := (s.blockQueue b).getD []

/-! ## Inserting -/

/-- SRCLINE: process_manager.cc:1018-1021 -/
def insertThread (s : ProcManager) (incoming : ThreadNode) : ProcManager :=
  { s with
    numWaitingDispatchedThreads := s.numWaitingDispatchedThreads + 1
    threadQueue := s.threadQueue ++ [{ incoming with id := s.inserted, uid := 0 }]
    inserted := s.inserted + 1 }

/-- The schedule information of a block, made if there is none. -/
def infoFor (s : ProcManager) (b : ℕ) : BlockInfo := (s.info b).getD (BlockInfo.init s.nextUid)

/-- SRCLINE: process_manager.cc:1024-1047 -/
def insertBlock (s : ProcManager) (incoming : ThreadNode) : ProcManager :=
  let b := incoming.blockId
  let i := s.infoFor b
  let node := { incoming with id := s.inserted, uid := i.uid }
  { s with
    numWaitingDispatchedThreads := s.numWaitingDispatchedThreads + 1
    info := Function.update s.info b
      (some { i with totalThreadNum := i.totalThreadNum + 1, traceExist := true })
    blockQueue := Function.update s.blockQueue b (some (s.queueOf b ++ [node]))
    inserted := s.inserted + 1
    nextUid := if s.info b = none then s.nextUid + 1 else s.nextUid }

/-- The number of a block: that of the mapper, or a new one. -/
def mapBlock (s : ProcManager) (process key : ℕ) : ℕ × ProcManager :=
  match s.mapper process key with
  | some b => (b, s)
  | none =>
    (s.mapperSize, { s with
      mapper := Function.update s.mapper process
        (Function.update (s.mapper process) key (some s.mapperSize))
      mapperSize := s.mapperSize + 1 })

/-- A thread becomes ready; `threadId` is the number of the trace.

SRCLINE: process_manager.cc:250-297 -/
def createThreadNode (k : ProcKnobs) (s : ProcManager) (process tid threadId : ℕ) (main : Bool) :
    ProcManager :=
  let r := s.mapBlock process (threadId >>> 16 + k.kernelBlockStartCount process)
  let s := { r.2 with
    blockList := Function.update r.2.blockList process
      (Function.update (r.2.blockList process) r.1 true) }
  let node : ThreadNode := ⟨process, tid, main, k.acc process, r.1, 0, 0⟩
  if k.acc process = true then s.insertBlock node else s.insertThread node

/-! ## Dispatching -/

/-- `smc_rob_c::reserve_rob`: how many reorder buffers are left.  The thread is new, so that it
has none yet.

SRCLINE: core.cc:649-651, rob_smc.cc:147-160 -/
def reserveRob (k : ProcKnobs) (s : ProcManager) (c : ℕ) : Option ℕ :=
  if (k.coreType c).hasGpuRob = true then
    if (s.core c).freeRobs = 0 then none else some ((s.core c).freeRobs - 1)
  else some (s.core c).freeRobs

/-- The thread gets the next number of the core, which has `robs` reorder buffers left. -/
def place (s : ProcManager) (c : ℕ) (node : ThreadNode) (robs : ℕ) : ProcManager :=
  s.setCore c { s.core c with
    threads := (s.core c).threads ++ [⟨node, false⟩]
    runningThreadNum := (s.core c).runningThreadNum + 1
    applId := node.process
    freeRobs := robs }

/-- The part of a dispatch that all cores share.

SRCLINE: process_manager.cc:1173-1192, process_manager.cc:1234-1251, core.cc:618-651,
core.cc:719-722, core.cc:761-771 -/
def dispatch (k : ProcKnobs) (s : ProcManager) (c : ℕ) (node : ThreadNode) : Option ProcManager :=
  (s.reserveRob k c).map (s.place c node)

/-- A core of the type that may take another thread. -/
def available (k : ProcKnobs) (s : ProcManager) (t : CoreType) (c : ℕ) : Bool :=
  decide (¬ (k.routerPlacement = 1 ∧ k.coreType c ≠ .ptx ∧
      (c < k.coreEnableBegin ∨ k.coreEnableEnd < c)) ∧
    (s.core c).runningThreadNum < k.maxThreadsPerCore c ∧ k.coreType c = t)

/-- SRCLINE: process_manager.cc:1107-1125 -/
def getNextAvailableCore (k : ProcKnobs) (s : ProcManager) (t : CoreType) : Option ℕ :=
  (List.range k.numSimCores).find? (s.available k t)

/-- SRCLINE: process_manager.cc:1083-1105 -/
def getNextLowOccupancyCore (k : ProcKnobs) (s : ProcManager) (t : CoreType) : Option ℕ :=
  (List.range k.numSimCores).foldl (fun best c =>
    if s.available k t c = true ∧
        (∀ b ∈ best, (s.core c).runningThreadNum < (s.core b).runningThreadNum) then some c
    else best) none

def getNextCore (k : ProcKnobs) (s : ProcManager) (t : CoreType) : Option ℕ :=
  if k.greedy then s.getNextAvailableCore k t else s.getNextLowOccupancyCore k t

/-- A thread leaves the queue of the CPU applications.

SRCLINE: process_manager.cc:1050-1061 -/
def takeThread (s : ProcManager) (rest : List ThreadNode) : ProcManager :=
  { s with
    numWaitingDispatchedThreads := s.numWaitingDispatchedThreads - 1
    threadQueue := rest }

/-- The loop over the cores of a type other than ptx; every iteration takes a thread out of the
queue, and there are at most so many.

SRCLINE: process_manager.cc:1050-1061, process_manager.cc:1158-1213 -/
def scheduleThreads (k : ProcKnobs) (t : CoreType) : ℕ → ProcManager → Option ProcManager
  | 0, s => some s
  | n + 1, s =>
    match s.getNextCore k t with
    | none => some s
    | some c =>
      match s.threadQueue with
      | [] => some s
      | node :: rest =>
        if s.numWaitingDispatchedThreads = 0 then none
        else ((s.takeThread rest).dispatch k c node).bind (scheduleThreads k t n)

/-- A block has threads that were not dispatched. -/
def unfinished (s : ProcManager) (b : ℕ) : Bool :=
  match s.info b with
  | none => false
  | some i => decide (i.retired = false ∧ i.dispatchedThreadNum < i.totalThreadNum)

/-- At the start the blocks of an application are dealt out to its cores in turn.

SRCLINE: process_manager.cc:1347-1366 -/
def assigned (k : ProcKnobs) (s : ProcManager) (c : ℕ) (initial : Bool) (b : ℕ) : Option Bool :=
  let p := (s.core c).applId
  let first : ℤ := match s.mapper p (k.kernelBlockStartCount p) with
    | some b₀ => b₀
    | none => -1
  let minCore : ℤ := if k.maxNumCorePerAppl = 0 then 0 else (k.coreList p).headD 0
  if initial && !k.assignBlocksGreedilyInitially then
    if k.coreList p = [] then none
    else some (decide (((b : ℤ) - first).tmod (k.coreList p).length = c - minCore))
  else some true

/-- A block that was not fetched yet and has traces to schedule. -/
def fresh (s : ProcManager) (b : ℕ) : Option Bool :=
  (s.info b).map fun i => !i.startToFetch && i.traceExist

/-- The walk over the blocks of an application, up to the first new one.

SRCLINE: process_manager.cc:1340-1373 -/
def newBlock (k : ProcKnobs) (s : ProcManager) (c : ℕ) (initial : Bool) :
    List ℕ → Option (Option ℕ)
  | [] => some none
  | b :: blocks =>
    (s.assigned k c initial b).bind fun here =>
      if here = true then
        (s.fresh b).bind fun isNew =>
          if isNew = true then some (some b) else newBlock k s c initial blocks
      else newBlock k s c initial blocks

/-- The blocks of an application, in the order of its list. -/
def blocksOf (s : ProcManager) (process : ℕ) : List ℕ :=
  (List.range s.mapperSize).filter (s.blockList process)

/-- A new block is set up on a core.

SRCLINE: process_manager.cc:1380-1390 -/
def startBlock (s : ProcManager) (c b : ℕ) : ProcManager :=
  (s.setInfo b ((s.info b).map fun i =>
      { i with startToFetch := true, dispatchedCoreId := some c })).setCore c
    { s.core c with
      runningBlockNum := (s.core c).runningBlockNum + 1
      fetchingBlockId := some b }

/-- The block that a core is fetching, if it has threads left. -/
def continued (s : ProcManager) (c : ℕ) : Option ℕ :=
  (s.core c).fetchingBlockId.filter s.unfinished

/-- The block whose warp the core gets next.

SRCLINE: process_manager.cc:1298-1401 -/
def simScheduleThreadBlock (k : ProcKnobs) (s : ProcManager) (c : ℕ) (initial : Bool) :
    Option (Option ℕ × ProcManager) :=
  match s.continued c with
  | some b => some (some b, s)
  | none =>
    if (s.core c).runningBlockNum + 1 > k.maxBlock (s.core c).applId then some (none, s)
    else
      (s.newBlock k c initial (s.blocksOf (s.core c).applId)).map fun found =>
        match found with
        | none => (none, s)
        | some b => (some b, s.startBlock c b)

/-- A warp leaves the queue of its block, which counts it as dispatched.

SRCLINE: process_manager.cc:1066-1081, process_manager.cc:1239-1240 -/
def takeWarp (s : ProcManager) (b : ℕ) (rest : List ThreadNode) : ProcManager :=
  { (s.setQueue b (some rest)).setInfo b ((s.info b).map fun i =>
      { i with dispatchedThreadNum := i.dispatchedThreadNum + 1 }) with
    numWaitingDispatchedThreads := s.numWaitingDispatchedThreads - 1 }

/-- A warp of the block goes to the core.

SRCLINE: process_manager.cc:1066-1081, process_manager.cc:1232-1251 -/
def dispatchWarp (k : ProcKnobs) (s : ProcManager) (c b : ℕ) (node : ThreadNode)
    (rest : List ThreadNode) : Option ProcManager :=
  if s.numWaitingDispatchedThreads = 0 then none else (s.takeWarp b rest).dispatch k c node

/-- The loop over the warps of a core, from the block `b` on; every iteration takes a warp out
of a queue, and there are at most so many.

SRCLINE: process_manager.cc:1230-1289 -/
def scheduleWarps (k : ProcKnobs) (c : ℕ) (initial : Bool) :
    ℕ → ℕ → ProcManager → Option ProcManager
  | 0, _, s => some s
  | n + 1, b, s =>
    match s.queueOf b with
    | [] => some s
    | node :: rest =>
      (s.dispatchWarp k c b node rest).bind fun s =>
        if (s.core c).runningThreadNum = k.maxThreadsPerCore c then some s
        else
          (s.simScheduleThreadBlock k c initial).bind fun x =>
            match x with
            | (none, s) => some s
            | (some b, s) => scheduleWarps k c initial n b s

/-- The turn of one ptx core.

SRCLINE: process_manager.cc:1215-1290 -/
def ptxTurn (k : ProcKnobs) (initial : Bool) (s : ProcManager) (c : ℕ) : Option ProcManager :=
  (s.simScheduleThreadBlock k c initial).bind fun x =>
    match x with
    | (none, s) => some s
    | (some b, s) => scheduleWarps k c initial (s.numWaitingDispatchedThreads + 1) b s

/-- The cores of type ptx. -/
def ptxCores (k : ProcKnobs) : List ℕ :=
  (List.range k.numSimCores).filter fun c => k.coreType c = .ptx

/-- The loops over the core types other than ptx. -/
def scheduleCpus (k : ProcKnobs) (s : ProcManager) : Option ProcManager :=
  [CoreType.a64, .igpu, .x86].foldlM (fun s t =>
    scheduleThreads k t (s.threadQueue.length + 1) s) s

/-- SRCLINE: process_manager.cc:1127-1291 -/
def simThreadSchedule (k : ProcKnobs) (initial : Bool) (s : ProcManager) : Option ProcManager :=
  (s.scheduleCpus k).bind fun s => (ptxCores k).foldlM (ptxTurn k initial) s

/-! ## Terminating -/

/-- A warp of a block has ended, and with the last one the block.

SRCLINE: process_manager.cc:883-928 -/
def retireWarp (s : ProcManager) (c : ℕ) (node : ThreadNode) : ProcManager :=
  match s.info node.blockId with
  | none => s
  | some i =>
    if i.retiredThreadNum + 1 = i.totalThreadNum then
      { ((s.setInfo node.blockId none).setQueue node.blockId none).setCore c
          { s.core c with runningBlockNum := (s.core c).runningBlockNum - 1 } with
        blockList := Function.update s.blockList node.process
          (Function.update (s.blockList node.process) node.blockId false) }
    else s.setInfo node.blockId (some { i with retiredThreadNum := i.retiredThreadNum + 1 })

/-- A thread stops running on its core.

SRCLINE: process_manager.cc:860-867 -/
def finishThread (k : ProcKnobs) (s : ProcManager) (c tid : ℕ) (node : ThreadNode) : ProcManager :=
  s.setCore c ((s.core c).finish (k.coreType c) tid node)

/-- The check of the forward progress passes.

SRCLINE: core.cc:685-692 -/
def forwardProgress (s : ProcManager) (c : ℕ) : Bool :=
  decide ((s.core c).threads.length < (s.core c).lastTerminatedTid + 1000)

/-- The part of the end of a thread that only the warps of GPU applications have.

SRCLINE: process_manager.cc:883-971 -/
def endWarp (s : ProcManager) (c : ℕ) (node : ThreadNode) : Option ProcManager :=
  if s.info node.blockId = none then none
  else
    let s := s.retireWarp c node
    if (s.core c).runningBlockNum < 0 then none else some s

/-- The end of a thread between the two times that it schedules.

SRCLINE: process_manager.cc:858-972 -/
def endThread (k : ProcKnobs) (s : ProcManager) (c tid : ℕ) (node : ThreadNode) :
    Option ProcManager :=
  let s := s.finishThread k c tid node
  if s.forwardProgress c = false then none
  else if node.acc = true then s.endWarp c node else some s

/-- The end of the thread `tid` of a core; a thread that has finished is not terminated again.
The final heartbeat of the thread schedules first.

SRCLINE: process_manager.cc:850-1015, core.cc:429-432, retire.cc:292-304 -/
def terminateThread (k : ProcKnobs) (s : ProcManager) (c tid : ℕ) : Option ProcManager :=
  match (s.core c).threads[tid]? with
  | none => some s
  | some slot =>
    if slot.finished = true then some s
    else if (s.core c).runningThreadNum = 0 then none
    else
      (s.simThreadSchedule k false).bind fun s =>
        (s.endThread k c tid slot.node).bind fun s =>
          if s.numWaitingDispatchedThreads ≠ 0 then s.simThreadSchedule k false else some s

end ProcManager

/-- The calls of the process manager. -/
inductive ProcStep where
  | createThreadNode (process tid threadId : ℕ) (main : Bool)
  | simThreadSchedule (initial : Bool)
  | terminateThread (c tid : ℕ)

namespace ProcManager

def step (k : ProcKnobs) (s : ProcManager) : ProcStep → Option ProcManager
  | .createThreadNode process tid threadId main =>
    some (s.createThreadNode k process tid threadId main)
  | .simThreadSchedule initial => s.simThreadSchedule k initial
  | .terminateThread c tid => s.terminateThread k c tid

def run (k : ProcKnobs) (s : ProcManager) (steps : List ProcStep) : Option ProcManager :=
  steps.foldlM (step k) s

end ProcManager

end MacSim.Model
