import Mathlib.Logic.Function.Basic
import Mathlib.Data.Nat.Notation

/-!
# The warp schedulers of a GPU core

`smc_allocate_c` pushes the uops of all threads into one allocation queue, each into the reorder
buffer of its thread.  `schedule_smc_c` moves them on into one circular list, which every warp
scheduler scans from its head: it passes the uops of the threads of other schedulers and those
of threads that were looked at in this cycle, and stops at the first one that executes.

The knobs `KNOB_GPU_USE_SINGLE_ALLOCQ_TYPE` and `KNOB_GPU_SHARE_ALLOCQS_BETWEEN_THREADS` are on,
so that all uops have the type `gen_ALLOCQ` and the other queues are empty.  A slot `none` of
the list is `-1` in both arrays of the source.

Whether an attempt executes, with which latency, how many entries of the queue have passed
theirs and when the memory system writes a done cycle are arguments of the actions.  History
variables record what was pushed, what executed, by which scheduler and in which scheduling
cycle, and whether a slot that was occupied was ever written.
-/

set_option autoImplicit false

namespace MacSim.Model

/-- The values of `Uop_Type` that the warp scheduler tells apart, and the others. -/
inductive SmcUopType where
  | fcos | fex2 | flg2 | frcp | frsqrt | fsin | fsqrt
  | other (value : ℕ)
  deriving DecidableEq, Repr

/-- `schedule_smc_c::is_sfu_inst`.
SRCLINE: schedule_smc.cc:600-608 -/
def SmcUopType.isSfuInst : SmcUopType → Bool
  | other _ => false
  | _ => true

/-- What the warp schedulers and the reorder buffers read of a uop.  `num` tells the uops
apart. -/
structure SmcUop where
  num : ℕ
  uopType : SmcUopType
  bogus : Bool
  doneCycle : ℕ
  deriving DecidableEq, Repr

/-- The knobs of a GPU core.  Without a thread the schedule list has no slot, and with a warp
scheduler count of zero `run_a_cycle` divides by zero. -/
structure SmcKnobs where
  numThreads : ℕ
  numThreads_pos : 0 < numThreads
  numWarpScheduler : ℕ
  scheduleRatio : ℕ
  robSize : ℕ
  schedSize : ℕ
  schedRate : ℕ
  dispatchLatency : SmcUopType → ℕ

/-- `MAX_GPU_SCHED_SIZE`.
SRCLINE: schedule_smc.h:112 -/
def maxGpuSchedSize : ℕ := 128

namespace SmcKnobs

/-- `m_schlist_size`.
SRCLINE: schedule_smc.cc:101 -/
def schlistSize (k : SmcKnobs) : ℕ := maxGpuSchedSize * k.numThreads

/-- `rob_c::m_max_cnt`, twice the usable size. -/
def robMax (k : SmcKnobs) : ℕ := 2 * k.robSize

end SmcKnobs

/-- A uop that executed: the thread and the number, the warp scheduler and the count of the
scheduling cycle. -/
structure Issue where
  thread : ℕ
  num : ℕ
  sched : ℕ
  round : ℕ
  deriving DecidableEq, Repr

/-- The reorder buffer of a thread, the array and the two ends. -/
structure ThreadRob where
  uops : ℕ → SmcUop
  firstEntry : ℕ
  lastEntry : ℕ
  freeCnt : ℕ

/-- A GPU core from its allocation queue to its reorder buffers.  `live` are the threads that
have a reorder buffer, `started` is `m_unique_scheduled_thread_num`. -/
structure SmcSched where
  live : List ℕ
  started : ℕ
  rob : ℕ → ThreadRob
  allocQ : List (ℕ × ℕ)
  schlist : ℕ → Option (ℕ × ℕ)
  firstSchlist : ℕ
  lastSchlist : ℕ
  numInSched : ℕ
  numPerSched : ℕ
  processedThreads : List ℕ
  dispatchBusyCycle : ℕ → ℕ
  sfuDispatchBusyCycle : ℕ
  nextSchedId : ℕ
  scheduleModulo : ℕ
  cycle : ℕ
  nextNum : ℕ
  round : ℕ
  pushed : List (ℕ × ℕ)
  executed : List Issue
  overwritten : Bool

namespace ThreadRob

/-- `rob_c::reinit`.
SRCLINE: rob.cc:202-211 -/
def reinit (k : SmcKnobs) : ThreadRob where
  uops := fun _ => ⟨0, .other 0, false, 0⟩
  firstEntry := 0
  lastEntry := 0
  freeCnt := k.robSize

/-- `rob_c::push`.
SRCLINE: rob.cc:82-88 -/
def push (k : SmcKnobs) (r : ThreadRob) (u : SmcUop) : ThreadRob where
  uops := Function.update r.uops r.lastEntry u
  firstEntry := r.firstEntry
  lastEntry := (r.lastEntry + 1) % k.robMax
  freeCnt := r.freeCnt - 1

/-- `rob_c::pop`.
SRCLINE: rob.cc:189-200 -/
def pop (k : SmcKnobs) (r : ThreadRob) : ThreadRob :=
  { r with firstEntry := (r.firstEntry + 1) % k.robMax, freeCnt := r.freeCnt + 1 }

/-- The done cycle of an entry is written. -/
def setDone (r : ThreadRob) (entry cycle : ℕ) : ThreadRob :=
  { r with uops := Function.update r.uops entry { r.uops entry with doneCycle := cycle } }

end ThreadRob

namespace SmcSched

/-- The constructors of `smc_rob_c` and `schedule_smc_c`.
SRCLINE: rob_smc.cc:61-91, schedule_smc.cc:77-121, schedule.cc:58-80 -/
def new (k : SmcKnobs) : SmcSched where
  live := []
  started := 0
  rob := fun _ => ThreadRob.reinit k
  allocQ := []
  schlist := fun _ => none
  firstSchlist := 0
  lastSchlist := 0
  numInSched := 0
  numPerSched := 0
  processedThreads := []
  dispatchBusyCycle := fun _ => 0
  sfuDispatchBusyCycle := 0
  nextSchedId := 0
  scheduleModulo := k.scheduleRatio - 1
  cycle := 0
  nextNum := 0
  round := 0
  pushed := []
  executed := []
  overwritten := false

def setRob (s : SmcSched) (t : ℕ) (r : ThreadRob) : SmcSched :=
  { s with rob := Function.update s.rob t r }

/-- The uop of an entry of the queue or of the list. -/
def uopAt (s : SmcSched) (x : ℕ × ℕ) : SmcUop := (s.rob x.1).uops x.2

/-! ## Threads and reorder buffers -/

/-- A new thread takes the next thread number and reserves a reorder buffer.
SRCLINE: process_manager.cc:1245-1253, core.cc:650-651, rob_smc.cc:147-159 -/
def startThread (k : SmcKnobs) (s : SmcSched) : Option SmcSched :=
  if k.numThreads ≤ s.live.length then none
  else
    some { s.setRob s.started (ThreadRob.reinit k) with
      live := s.live ++ [s.started]
      started := s.started + 1 }

/-- One uop of thread `t` in `smc_allocate_c::run_a_cycle`.  `space` says that the allocation
queue and the physical resources have room.  A uop object comes from the pool with a done cycle
of zero and is not bogus.
SRCLINE: allocate_smc.cc:104-212, uop.cc:428-434 -/
def allocate (k : SmcKnobs) (s : SmcSched) (t : ℕ) (uopType : SmcUopType) (space : Bool) :
    Option SmcSched :=
  if t ∉ s.live then none
  else if (s.rob t).freeCnt < 1 ∨ space = false then some s
  else
    some { s.setRob t ((s.rob t).push k ⟨s.nextNum, uopType, false, 0⟩) with
      allocQ := s.allocQ ++ [(t, (s.rob t).lastEntry)]
      nextNum := s.nextNum + 1
      pushed := s.pushed ++ [(t, s.nextNum)] }

/-- The retire stage pops the uop at the head of the reorder buffer of thread `t`, once it is
done; with the last one the thread ends and its buffer is freed.
SRCLINE: rob_smc.cc:188-213, retire.cc:143-155, core.cc:683 -/
def retire (k : SmcKnobs) (s : SmcSched) (t : ℕ) (ends : Bool) : Option SmcSched :=
  let r := s.rob t
  let done := (r.uops r.firstEntry).doneCycle
  if t ∉ s.live ∨ r.freeCnt = k.robSize ∨ done = 0 ∨ s.cycle < done then none
  else
    some { s.setRob t (r.pop k) with live := if ends then s.live.erase t else s.live }

/-- The memory system writes the done cycle of a uop that `exec_c::exec` has accepted.
SRCLINE: exec.cc:513-522, memory.cc:1486-1545 -/
def complete (s : SmcSched) (t entry cycle : ℕ) : Option SmcSched :=
  if ∃ x ∈ s.executed, x.thread = t ∧ x.num = (s.uopAt (t, entry)).num then
    some (s.setRob t ((s.rob t).setDone entry cycle))
  else none

/-! ## The scan of a warp scheduler -/

/-- The done cycle that `exec_c::exec` writes when it knows the latency.
SRCLINE: exec.cc:655-660 -/
def accept (s : SmcSched) (x : ℕ × ℕ) : Option ℕ → SmcSched
  | none => s
  | some latency => s.setRob x.1 ((s.rob x.1).setDone x.2 (s.cycle + latency))

/-- The units that a uop keeps busy.
SRCLINE: schedule_smc.cc:488-494 -/
def occupy (k : SmcKnobs) (s : SmcSched) (sched : ℕ) (uopType : SmcUopType) : SmcSched :=
  if uopType.isSfuInst then
    { s with sfuDispatchBusyCycle := s.cycle + k.dispatchLatency uopType }
  else
    { s with dispatchBusyCycle :=
        Function.update s.dispatchBusyCycle sched (s.cycle + k.dispatchLatency uopType) }

/-- The head of the list passes the empty slot `i`.
SRCLINE: schedule_smc.cc:470-472, schedule_smc.cc:504-506 -/
def passHole (k : SmcKnobs) (s : SmcSched) (i : ℕ) : SmcSched :=
  if i = s.firstSchlist then { s with firstSchlist := (s.firstSchlist + 1) % k.schlistSize }
  else s

/-- The uop in slot `i` leaves the list.
SRCLINE: schedule_smc.cc:358-377, schedule_smc.cc:468-469 -/
def clearSlot (s : SmcSched) (sched i : ℕ) (x : ℕ × ℕ) : SmcSched :=
  { s with
    numInSched := s.numInSched - 1
    numPerSched := s.numPerSched - 1
    schlist := Function.update s.schlist i none
    executed := s.executed ++ [⟨x.1, (s.uopAt x).num, sched, s.round⟩] }

/-- The end of `uop_schedule_smc` for the uop in slot `i` that `exec_c::exec` accepted, and what
`run_a_cycle` does with the slot.
SRCLINE: schedule_smc.cc:358-390, schedule_smc.cc:465-498 -/
def issue (k : SmcKnobs) (s : SmcSched) (sched i : ℕ) (x : ℕ × ℕ) (latency : Option ℕ) :
    SmcSched :=
  let uopType := (s.uopAt x).uopType
  (((s.accept x latency).clearSlot sched i x).passHole k i).occupy k sched uopType

/-- The loop of the warp scheduler `sched` from slot `i` on.  `exec` answers for each slot
whether its uop executes, and with which latency.  The first argument bounds the number of
slots; `none` is the assertion of `get_thread_rob`.
SRCLINE: schedule_smc.cc:423-508 -/
def scan (k : SmcKnobs) (exec : ℕ → Option (Option ℕ)) (sched : ℕ) :
    ℕ → ℕ → SmcSched → Option SmcSched
  | 0, _, s => some s
  | fuel + 1, i, s =>
      if i = s.lastSchlist then some s
      else if s.numInSched = 0 ∨ s.firstSchlist = s.lastSchlist then some s
      else
        let next := (i + 1) % k.schlistSize
        match s.schlist i with
        | none => scan k exec sched fuel next (s.passHole k i)
        | some x =>
            if x.1 % k.numWarpScheduler ≠ sched ∨ x.1 ∈ s.processedThreads then
              scan k exec sched fuel next s
            else if x.1 ∉ s.live then none
            else
              let s := { s with processedThreads := x.1 :: s.processedThreads }
              if (s.uopAt x).uopType.isSfuInst ∧ s.cycle < s.sfuDispatchBusyCycle then
                scan k exec sched fuel next s
              else match exec i with
                | none => scan k exec sched fuel next s
                | some latency => some (s.issue k sched i x latency)

/-! ## Insertion -/

/-- The loop of `schedule_smc_c::advance`.  The first argument counts the entries that are
ready, `count` what was inserted.
SRCLINE: schedule_smc.cc:131-195 -/
def advanceLoop (k : SmcKnobs) : ℕ → ℕ → SmcSched → Option SmcSched
  | 0, _, s => some s
  | n + 1, count, s =>
      match s.allocQ with
      | [] => some s
      | x :: rest =>
          -- this prevents scheduler overwritten
          if (s.lastSchlist + 1) % k.schlistSize = s.firstSchlist then some s
          else if x.1 ∉ s.live then none
          else if k.schedRate ≤ count ∨ k.schedSize ≤ s.numPerSched then some s
          else
            let uop := s.uopAt x
            let s := { s with allocQ := rest }
            if uop.bogus || uop.doneCycle != 0 then
              advanceLoop k n count (s.setRob x.1 ((s.rob x.1).setDone x.2 s.cycle))
            else
              advanceLoop k n (count + 1)
                { s with
                  overwritten := s.overwritten || (s.schlist s.lastSchlist).isSome
                  schlist := Function.update s.schlist s.lastSchlist (some x)
                  lastSchlist := (s.lastSchlist + 1) % k.schlistSize
                  numInSched := s.numInSched + 1
                  numPerSched := s.numPerSched + 1 }

/-- One warp scheduler of a scheduling cycle.
SRCLINE: schedule_smc.cc:419-424 -/
def schedule (k : SmcKnobs) (exec : ℕ → ℕ → Option (Option ℕ)) (s : SmcSched) (sched : ℕ) :
    Option SmcSched :=
  if s.cycle < s.dispatchBusyCycle sched then some s
  else s.scan k (exec sched) sched k.schlistSize s.firstSchlist

/-- The warp schedulers in the order of a cycle.
SRCLINE: schedule_smc.cc:416-418 -/
def schedOrder (k : SmcKnobs) (s : SmcSched) : List ℕ :=
  (List.range k.numWarpScheduler).map fun c => (s.nextSchedId + c) % k.numWarpScheduler

/-- `schedule_smc_c::run_a_cycle`.
SRCLINE: schedule_smc.cc:394-523 -/
def runACycle (k : SmcKnobs) (s : SmcSched) (exec : ℕ → ℕ → Option (Option ℕ)) (ready : ℕ) :
    Option SmcSched :=
  let s := { s with scheduleModulo := (s.scheduleModulo + 1) % k.scheduleRatio }
  if s.scheduleModulo ≠ 0 then some s
  else
    let s := { s with round := s.round + 1 }
    do
      let s ← (s.schedOrder k).foldlM (schedule k exec) s
      let s := { s with
        nextSchedId := (s.nextSchedId + 1) % k.numWarpScheduler
        processedThreads := [] }
      s.advanceLoop k ready 0

/-! ## Runs -/

/-- One action of a GPU core on its warp schedulers. -/
inductive Act where
  /-- a thread is scheduled on the core -/
  | startThread
  /-- a uop is allocated -/
  | allocate (t : ℕ) (uopType : SmcUopType) (space : Bool)
  /-- one cycle of the warp schedulers -/
  | runACycle (exec : ℕ → ℕ → Option (Option ℕ)) (ready : ℕ)
  /-- the memory system writes the done cycle of a uop -/
  | complete (t entry cycle : ℕ)
  /-- the oldest uop of a thread retires -/
  | retire (t : ℕ) (ends : Bool)
  /-- the clock advances -/
  | tick

/-- One action; `none` is a failed assertion or an action that the core does not offer. -/
def step (k : SmcKnobs) (s : SmcSched) : Act → Option SmcSched
  | .startThread => s.startThread k
  | .allocate t uopType space => s.allocate k t uopType space
  | .runACycle exec ready => s.runACycle k exec ready
  | .complete t entry cycle => s.complete t entry cycle
  | .retire t ends => s.retire k t ends
  | .tick => some { s with cycle := s.cycle + 1 }

/-- A run of actions. -/
def run (k : SmcKnobs) (s : SmcSched) (acts : List Act) : Option SmcSched :=
  acts.foldlM (step k) s

end SmcSched

end MacSim.Model
