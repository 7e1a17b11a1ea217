import MacSim.Model.DepMap

/-!
# Fetching, issuing and freeing uops

The life of a uop object on one core.  The front end takes an object from the pool, fills it
from the trace and maps its dependences; the scheduler tests its sources and calls
`exec_c::exec`; execution or the memory system writes its done cycle; retirement frees it and
puts it back at the front of the pool.

What the other stages decide, whether a port is free, whether a fence holds the uop back and
what `exec` answers, is an argument of the action.  Retirement may free the uops in flight in
any order: the order of the reorder buffer is one of them.
-/

set_option autoImplicit false

namespace MacSim.Model

/-- What the trace reader puts into a new uop.  `children` are the addresses of the uops that
an uncoalesced memory uop is split into, `childSize` is their size. -/
structure TraceUop where
  memType : MemType
  vaddr : Addr
  memSize : ℕ
  bogus : Bool
  srcs : List ℕ
  dests : List ℕ
  children : List Addr
  childSize : ℕ
  deriving DecidableEq, Repr

/-- The number of objects by which the pool of a core grows.
SRCLINE: core.cc:159 -/
def uopPoolUnit : ℕ := 1000

/-- What `uop_schedule` meets outside of the modelled stages: the rule for SIMD uops on an
integrated GPU, the ports, the fences, and the answer of `exec_c::exec` with the latency it
returned, if any.  `execRetireLatency` is the knob of that name. -/
structure SchedEnv where
  simdUnitBusy : Bool
  portAvailable : Bool
  fenceActive : Bool
  execOk : Bool
  latency : Option ℕ
  execRetireLatency : ℕ
  deriving DecidableEq, Repr

/-- How `uop_schedule` ends. -/
inductive SchedResult where
  | noAvailableSimdUnit | operandsNotReady | noAvailablePorts | fenceActive
  | execFailed | success
  deriving DecidableEq, Repr

/-- The uop reached `exec_c::exec`. -/
def SchedResult.execCalled : SchedResult → Bool
  | execFailed | success => true
  | _ => false

namespace DepCore

/-! ## The pool -/

/-- `pool_c::acquire_entry`.  An empty pool first grows by new objects.
SRCLINE: utils.h:160-167 -/
def acquireEntry (s : DepCore) : UopPtr × DepCore :=
  match s.pool with
  | p :: rest => (p, { s with pool := rest })
  | [] =>
      (s.nextUop,
        { s with
          pool := List.range' (s.nextUop + 1) (uopPoolUnit - 1)
          nextUop := s.nextUop + uopPoolUnit })

/-- `pool_c::release_entry`.
SRCLINE: utils.h:172-174 -/
def releaseEntry (s : DepCore) (p : UopPtr) : DepCore := { s with pool := p :: s.pool }

/-- `uop_c::free`.
SRCLINE: uop.cc:482-499 -/
def free (k : DepKnobs) (s : DepCore) (p : UopPtr) : DepCore :=
  let s := s.setUop p { s.heap p with uopNum := 0, valid := false }
  let s := if (s.heap p).memType.hashedStore then s.deleteStoreHashEntry k p else s
  s.setUop p { s.heap p with threadId := -1 }

/-! ## Fetch -/

/-- The uop that the trace reader leaves in an allocated object.
SRCLINE: trace_read_cpu.cc:1204-1227 -/
def uopOfTrace (tid : ℕ) (num : ℕ) (t : TraceUop) : CoreUop :=
  { CoreUop.init true with
    uopNum := num, threadId := tid, memType := t.memType, vaddr := t.vaddr,
    memSize := t.memSize, bogus := t.bogus, srcInfo := t.srcs, destInfo := t.dests }

/-- One child of an uncoalesced memory uop: a copy of its parent at an address of its own.
SRCLINE: trace_read_gpu.cc:1240-1258 -/
def addChild (p : UopPtr) (tid : ℕ) (size : ℕ) (s : DepCore) (va : Addr) : DepCore :=
  let (c, s) := s.acquireEntry
  let uop := s.heap p
  let s := s.setUop c
    { uop with vaddr := va, memSize := size, uopNum := s.uopCount tid }
  { s.setUop p { uop with childUops := uop.childUops ++ [c] } with
    uopCount := Function.update s.uopCount tid (s.uopCount tid + 1) }

/-- `uop_c::allocate` and `get_uops_from_traces` on an object of the pool.
SRCLINE: frontend.cc:456-464 -/
def newUop (s : DepCore) (tid : ℕ) (t : TraceUop) : UopPtr × DepCore :=
  let (p, s) := s.acquireEntry
  let s := s.setUop p (uopOfTrace tid (s.uopCount tid) t)
  let s := { s with uopCount := Function.update s.uopCount tid (s.uopCount tid + 1) }
  (p, t.children.foldl (addChild p tid t.childSize) s)

/-- The dependence part of a fetch.
SRCLINE: frontend.cc:497-506 -/
def mapDeps (k : DepKnobs) (s : DepCore) (p : UopPtr) : Option DepCore :=
  if k.ignoreDep then some s
  else do
    let s ← s.mapUop k p
    s.mapMemDep k p

/-- Fetch of one uop: the uop is in flight from now on, before the scheduler.
SRCLINE: frontend.cc:453-506 -/
def fetch (k : DepKnobs) (s : DepCore) (tid : ℕ) (t : TraceUop) : Option DepCore :=
  let (p, s) := s.newUop tid t
  (s.mapDeps k p).map fun s =>
    { s with inFlight := s.inFlight ++ [p], waiting := s.waiting ++ [p] }

/-! ## Issue -/

/-- One uop of `schedule_c::advance`: a uop that was flushed does not enter the scheduler.
SRCLINE: schedule.cc:374-405 -/
def advance (s : DepCore) (p : UopPtr) : DepCore :=
  let s := { s with waiting := s.waiting.erase p }
  if (s.heap p).bogus || (s.heap p).doneCycle != 0 then
    s.setUop p { s.heap p with doneCycle := s.cycle }
  else { s with inSched := s.inSched ++ [p] }

/-- The test of one source in `check_srcs`: the source uop is still the one that was
recorded, and it is not done. -/
def srcPending (s : DepCore) (tid : ℤ) (info : SrcInfo) : Bool :=
  let src := s.heap info.uop
  src.valid && src.uopNum == info.uopNum && src.threadId == tid &&
    (src.doneCycle == 0 || decide (s.cycle < src.doneCycle))

/-- `schedule_c::check_srcs`.  The first pending source may become the uop whose done cycle
the next attempt waits for.
SRCLINE: schedule.cc:108-169 -/
def checkSrcs (s : DepCore) (p : UopPtr) : Bool × DepCore :=
  let uop := s.heap p
  if uop.srcsRdy then (true, s)
  else
    match uop.mapSrcInfo.find? (srcPending s uop.threadId) with
    | some info =>
        let later := match uop.lastDepExec with
          | none => true
          | some q => decide ((s.heap q).doneCycle < (s.heap info.uop).doneCycle)
        (false,
          if later then s.setUop p { uop with lastDepExec := some info.uop } else s)
    | none => (true, s.setUop p { uop with srcsRdy := true })

/-- The early return of `uop_schedule` on the done cycle that `m_last_dep_exec` points at.
SRCLINE: schedule.cc:206-211 -/
def waitsForLastDep (s : DepCore) (uop : CoreUop) : Bool :=
  !uop.bogus && !uop.srcsRdy &&
    match uop.lastDepExec with
    | none => false
    | some q => decide (s.cycle < (s.heap q).doneCycle)

/-- What `exec_c::exec` writes into a uop it accepts with a positive latency.
SRCLINE: exec.cc:655-660 -/
def execUop (s : DepCore) (p : UopPtr) (env : SchedEnv) : DepCore :=
  match env.latency with
  | none => s
  | some latency =>
      s.setUop p { s.heap p with doneCycle := s.cycle + max latency env.execRetireLatency }

/-- `schedule_c::uop_schedule`; a uop that executes leaves the scheduler.
SRCLINE: schedule.cc:173-324 -/
def uopSchedule (s : DepCore) (p : UopPtr) (env : SchedEnv) : SchedResult × DepCore :=
  let uop := s.heap p
  if env.simdUnitBusy then (.noAvailableSimdUnit, s)
  else if s.waitsForLastDep uop then (.operandsNotReady, s)
  else
    let (ready, s) := if uop.bogus then (true, s) else s.checkSrcs p
    if !ready then (.operandsNotReady, s)
    else if !uop.bogus && !env.portAvailable then (.noAvailablePorts, s)
    else if !uop.bogus && env.fenceActive then (.fenceActive, s)
    else if env.execOk then
      (.success, { s.execUop p env with inSched := s.inSched.erase p })
    else (.execFailed, s)

/-! ## Retirement -/

/-- `retire_c::free_uop_resources`.
SRCLINE: retire.cc:487-499 -/
def freeUopResources (k : DepKnobs) (s : DepCore) (p : UopPtr) : DepCore :=
  let s := (s.heap p).childUops.foldl (fun s c => (s.free k c).releaseEntry c) s
  (s.free k p).releaseEntry p

end DepCore

/-! ## Runs -/

/-- One action of a core on its uops. -/
inductive DepAct where
  /-- fetch the next uop of a thread -/
  | fetch (tid : ℕ) (t : TraceUop)
  /-- a uop is taken from an allocation queue -/
  | advance (p : UopPtr)
  /-- an attempt to issue a uop of the scheduler -/
  | schedule (p : UopPtr) (env : SchedEnv)
  /-- the memory system writes the done cycle of a uop -/
  | complete (p : UopPtr) (cycle : ℕ)
  /-- a uop that has left the scheduler is freed -/
  | retire (p : UopPtr)
  /-- a thread all of whose uops are retired ends -/
  | endThread (tid : ℕ)
  /-- the clock advances -/
  | tick
  deriving DecidableEq, Repr

namespace DepCore

/-- One action; `none` is a failed assertion or an action that the core does not offer. -/
def step (k : DepKnobs) (s : DepCore) : DepAct → Option DepCore
  | .fetch tid t => s.fetch k tid t
  | .advance p => if p ∈ s.waiting then some (s.advance p) else none
  | .schedule p env => if p ∈ s.inSched then some (s.uopSchedule p env).2 else none
  | .complete p cycle => some (s.setUop p { s.heap p with doneCycle := cycle })
  | .retire p =>
      if p ∈ s.inFlight ∧ p ∉ s.waiting ∧ p ∉ s.inSched then
        some { s.freeUopResources k p with inFlight := s.inFlight.erase p }
      else none
  | .endThread tid =>
      if s.inFlight.any fun p => (s.heap p).threadId == tid then none
      else
        some { s.deleteMap tid with uopCount := Function.update s.uopCount tid 0 }
  | .tick => some { s with cycle := s.cycle + 1 }

end DepCore

end MacSim.Model
