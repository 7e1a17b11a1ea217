import MacSim.Model.CoreIssue
import MacSim.Computation.Arena

/-!
# Allocation, retirement and the write buffer

The two ends of the reorder buffer.  Fetch takes a uop object from the pool, the allocation
stage reserves a buffer entry or a register for it and pushes it into the reorder buffer of its
core or, on a GPU, of its thread; retirement pops it, gives the resource back and releases the
object, or leaves a store in the write buffer until it is complete.

Execution is not part of this model: an action writes the execution and done cycles of any
uop.  The space in the allocation queue and the order in which an `unordered_map` lists the
threads are arguments of the actions.
-/

set_option autoImplicit false

namespace MacSim.Model

open MacSim.Computation

/-- The values of `Uop_Type` that allocation and retirement tell apart. -/
inductive UopType where
  | iadd | imul | icmp | fcvt | fadd | fullFence | acqFence | relFence | other
  deriving DecidableEq, Repr

/-- The tests for one of the three fences. -/
def UopType.isFence : UopType → Bool
  | fullFence | acqFence | relFence => true
  | _ => false

/-- The values of `Bar_Type` that allocation and retirement tell apart. -/
inductive BarType where
  | notBar | acqBar | relBar | other
  deriving DecidableEq, Repr

/-- The four resources of `resource_c`. -/
inductive PhysRes where
  | sb | lb | intReg | fpReg
  deriving DecidableEq, Repr

/-- What allocation and retirement use of `uop_c`.  `req` are the four `m_req_*` flags. -/
structure BackUop where
  uniqueNum : ℕ
  uopNum : ℕ
  threadId : ℤ
  memType : MemType
  uopType : UopType
  barType : BarType
  isitBOM : Bool
  lastUop : Bool
  memVersion : ℕ
  execCycle : ℕ
  doneCycle : ℕ
  req : PhysRes → Bool
  childUops : List UopPtr

/-- What the trace reader decides about a new uop. -/
structure NewUop where
  uopNum : ℕ
  threadId : ℤ
  memType : MemType
  uopType : UopType
  barType : BarType
  isitBOM : Bool
  lastUop : Bool
  numChildUops : ℕ
  deriving DecidableEq, Repr

/-- The uop after `uop_c::allocate` and `get_uops_from_traces`.
SRCLINE: uop.cc:408-479 -/
def NewUop.init (n : NewUop) (unique : ℕ) : BackUop where
  uniqueNum := unique
  uopNum := n.uopNum
  threadId := n.threadId
  memType := n.memType
  uopType := n.uopType
  barType := n.barType
  isitBOM := n.isitBOM
  lastUop := n.lastUop
  memVersion := 0
  execCycle := 0
  doneCycle := 0
  req := fun _ => false
  childUops := []

/-- The knobs of the back end.  `gpu` is `m_ptx_sim || m_igpu_sim`, `robSize` the usable part of
a reorder buffer and `numThreads` the number of reorder buffers of a GPU core. -/
structure BackKnobs where
  gpu : Bool
  useWb : Bool
  wbSize : ℕ
  wbFifo : Bool
  acqRel : Bool
  fenceEnable : Bool
  width : ℕ
  robSize : ℕ
  numThreads : ℕ
  maxInsts : ℕ
  total : PhysRes → ℕ

/-- The width of the retire stage of a GPU core.
SRCLINE: retire.cc:110 -/
def gpuRetireWidth : ℕ := 1000

/-- What happens to the back end.  `execute` stands for the execution stage and the memory
system: they write the cycles of a uop.  `startThread` is the part of `allocate_thread_data`
that concerns it. -/
inductive BackAct where
  | fetch (n : NewUop)
  | allocate (allocqSpace : Bool)
  | execute (p : UopPtr) (execCycle doneCycle : ℕ)
  | startThread (t : ℤ)
  | tick
  | retire (order : List ℤ)
  deriving DecidableEq, Repr

/-! ## The reorder buffer -/

/-- `orq_entry`.
SRCLINE: rob.h:250-253 -/
structure OrqEntry where
  uopNum : ℕ
  version : ℕ
  deriving DecidableEq, Repr

/-- `rob_c`, oldest uop first.  The versions are `uint16_t`. -/
structure Rob where
  entries : List UopPtr
  version : ℕ
  lastFenceVersion : ℕ
  resetUopNum : ℕ
  orq : List OrqEntry
  rootFences : List (ℕ × Bool)
  deriving DecidableEq, Repr

namespace Rob

/-- `rob_c::rob_c`, with zeros in the fields that it leaves alone.  `rob_c::reinit` only empties
the array; the books that it leaves alone are read on CPU cores, which do not call it. -/
def new : Rob := ⟨[], 0, 0, 0, [], []⟩

/-- The version that `process_version` writes into a uop.
SRCLINE: rob.cc:91-101 -/
def versionOf (r : Rob) (uop : BackUop) : ℕ :=
  if uop.memType = .notMem then uop.memVersion
  else if uop.barType = .relBar ∨ uop.barType = .acqBar then r.lastFenceVersion
  else r.version

/-- The rest of `process_version`.
SRCLINE: rob.cc:103-121 -/
def processVersion (r : Rob) (fenceEnable : Bool) (uop : BackUop) : Rob :=
  let r := if uop.uopType.isFence then
      { r with lastFenceVersion := (r.lastFenceVersion + 1) % 2 ^ 16 }
    else r
  if uop.uopType = .fullFence ∨ uop.uopType = .acqFence then
    let r := if fenceEnable then
        { r with
          orq := r.orq ++ [⟨uop.uopNum, r.lastFenceVersion⟩]
          rootFences := r.rootFences ++ [(uop.uopNum, false)] }
      else r
    if uop.uopType = .fullFence then { r with version := r.lastFenceVersion } else r
  else r

/-- The loop of `update_orq` over the order queue and the root fences.  `none` is the failed
assertion. -/
def updateOrqLoop (lowestAge : ℕ) :
    List OrqEntry → List (ℕ × Bool) → Option (List OrqEntry × List (ℕ × Bool))
  | [], fences => some ([], fences)
  | e :: rest, fences =>
      if lowestAge ≤ e.uopNum then some (e :: rest, fences)
      else match fences.lookup e.uopNum with
        | none => none
        | some false => some (e :: rest, fences)
        | some true => updateOrqLoop lowestAge rest (fences.filter (·.1 != e.uopNum))

/-- `rob_c::update_orq`.
SRCLINE: rob.cc:124-147 -/
def updateOrq (r : Rob) (lowestAge : ℕ) : Option Rob :=
  (updateOrqLoop lowestAge r.orq r.rootFences).map fun x =>
    { r with orq := x.1, rootFences := x.2 }

/-- `rob_c::update_root`.  `none` is one of the failed assertions.
SRCLINE: rob.cc:150-160 -/
def updateRoot (r : Rob) (uop : BackUop) : Option Rob :=
  if uop.uopType = .fullFence ∨ uop.uopType = .acqFence then
    if r.orq.isEmpty ∨ (r.rootFences.lookup uop.uopNum).isNone then none
    else some { r with
      rootFences := r.rootFences.map fun e => if e.1 = uop.uopNum then (e.1, true) else e }
  else some r

/-- `rob_c::version_ordering_check`.
SRCLINE: rob.cc:162-173 -/
def versionOrderingCheck (r : Rob) (uop : BackUop) : Bool :=
  match r.orq with
  | [] => false
  | e :: _ => !(decide (uop.memVersion ≤ e.version) || decide (uop.uopNum ≤ r.resetUopNum))

/-- `rob_c::pop` of a buffer that is not empty.  The only entry resets the versions; `num` is
its uop number.
SRCLINE: rob.cc:189-200 -/
def pop (r : Rob) (num : ℕ) : Rob :=
  let r := if r.entries.length = 1 ∧ r.orq = [] then
      { r with version := 0, lastFenceVersion := 0, resetUopNum := num }
    else r
  { r with entries := r.entries.tail }

end Rob

/-! ## The state -/

/-- The back end of a core.  `robs` are the threads that have a reorder buffer; a CPU core has
one, under the key `0`.  `uopList` is `m_uop_list` of the GPU reorder buffer, which outlives
the cycle.  `popped` and `released` are the unique numbers of the uops that left a reorder
buffer, with their children, and of the uops given back to the pool. -/
structure BackEnd where
  heap : UopPtr → BackUop
  pool : Arena
  uniqueUopNum : ℕ
  frontendQ : List UopPtr
  robs : List ℤ
  rob : ℤ → Rob
  free : PhysRes → ℕ
  writeBuffer : List UopPtr
  uopList : List UopPtr
  instsRetired : ℤ → ℕ
  threadFinished : ℤ → Bool
  cycle : ℕ
  popped : List ℕ
  released : List ℕ

namespace BackEnd

/-- The back end of a new core. -/
def new (k : BackKnobs) : BackEnd where
  heap := fun _ => (⟨0, -1, .notMem, .other, .notBar, false, false, 0⟩ : NewUop).init 0
  pool := Arena.empty
  uniqueUopNum := 0
  frontendQ := []
  robs := if k.gpu then [] else [0]
  rob := fun _ => Rob.new
  free := k.total
  writeBuffer := []
  uopList := []
  instsRetired := fun _ => 0
  threadFinished := fun _ => false
  cycle := 0
  popped := []
  released := []

def setUop (s : BackEnd) (p : UopPtr) (u : BackUop) : BackEnd :=
  { s with heap := Function.update s.heap p u }

def setRob (s : BackEnd) (t : ℤ) (r : Rob) : BackEnd :=
  { s with rob := Function.update s.rob t r }

/-- A uop and its children. -/
def own (s : BackEnd) (p : UopPtr) : List UopPtr := p :: (s.heap p).childUops

/-- The unique numbers of a uop and its children. -/
def numbers (s : BackEnd) (p : UopPtr) : List ℕ := (s.own p).map fun q => (s.heap q).uniqueNum

/-- The reorder buffer of a uop: `m_rob`, or `get_thread_rob`. -/
def robKey (k : BackKnobs) (uop : BackUop) : ℤ := if k.gpu then uop.threadId else 0

/-! ## Fetch -/

/-- A uop object is taken from the pool and initialised; `get_uops_from_traces` gives it a
unique number.
SRCLINE: frontend.cc:453-466, core.h:326-328 -/
def newUop (s : BackEnd) (u : ℕ → BackUop) : UopPtr × BackEnd :=
  let (p, pool) := s.pool.acquire (uopPoolUnit - 1)
  (p, { s with
    pool := pool
    uniqueUopNum := s.uniqueUopNum + 1
    heap := Function.update s.heap p (u (s.uniqueUopNum + 1)) })

/-- One child uop: a copy of its parent with a number of its own.
SRCLINE: trace_read_gpu.cc:1242-1256 -/
def addChild (p : UopPtr) (s : BackEnd) : BackEnd :=
  let (c, s) := s.newUop fun num => { s.heap p with uniqueNum := num }
  s.setUop p { s.heap p with childUops := (s.heap p).childUops ++ [c] }

/-- Fetch of one uop with its children into the frontend queue.
SRCLINE: frontend.cc:451-576 -/
def fetch (s : BackEnd) (n : NewUop) : BackEnd :=
  let (p, s) := s.newUop n.init
  let s := (addChild p)^[n.numChildUops] s
  { s with frontendQ := s.frontendQ ++ [p] }

/-! ## Allocation -/

/-- The cascade that picks the resource of a uop on a CPU core.
SRCLINE: allocate.cc:126-141 -/
def cpuRequirement (uop : BackUop) : Option PhysRes :=
  match uop.memType with
  | .ld => some .lb
  | .st => some .sb
  | _ => match uop.uopType with
    | .iadd | .imul | .icmp => some .intReg
    | .fcvt | .fadd => some .fpReg
    | _ => none

/-- The cascade that picks the resource of a uop on a GPU core.
SRCLINE: allocate_smc.cc:121-139 -/
def gpuRequirement (uop : BackUop) : Option PhysRes :=
  match uop.memType with
  | .ldLm | .ldSm | .ldGm | .ldCm | .ldTm | .ldPm => some .lb
  | .stLm | .stSm | .stGm => some .sb
  | _ => match uop.uopType with
    | .iadd | .imul | .icmp => some .intReg
    | .fcvt | .fadd => some .fpReg
    | _ => none

def requirement (k : BackKnobs) (uop : BackUop) : Option PhysRes :=
  if k.gpu then gpuRequirement uop else cpuRequirement uop

/-- The resource of a uop is taken and its flag is set. -/
def allocResource (s : BackEnd) (p : UopPtr) : Option PhysRes → BackEnd
  | none => s
  | some r =>
      { s.setUop p { s.heap p with req := Function.update (s.heap p).req r true } with
        free := Function.update s.free r (s.free r - 1) }

/-- One round of `run_a_cycle` of the allocation stage: the head of the frontend queue, if it
is ready.  A thread without a reorder buffer is a failed assertion.
SRCLINE: allocate.cc:106-219, allocate_smc.cc:108-200 -/
def allocate (k : BackKnobs) (s : BackEnd) (allocqSpace : Bool) : Option BackEnd :=
  match s.frontendQ with
  | [] => some s
  | p :: rest =>
      let uop := s.heap p
      let t := robKey k uop
      let req := requirement k uop
      if t ∉ s.robs then none
      else if k.robSize ≤ (s.rob t).entries.length ∨ allocqSpace = false ∨
          ∃ r ∈ req, s.free r < 1 then some s
      else
        let s := s.allocResource p req
        let s := s.setUop p { s.heap p with memVersion := (s.rob t).versionOf (s.heap p) }
        let r := (s.rob t).processVersion k.fenceEnable (s.heap p)
        some { s.setRob t { r with entries := r.entries ++ [p] } with frontendQ := rest }

/-! ## Retirement -/

/-- `uop_c::free` and `pool_c::release_entry`.
SRCLINE: uop.cc:482-499, utils.h:172-174 -/
def freeUop (s : BackEnd) (p : UopPtr) : BackEnd :=
  { s.setUop p { s.heap p with uopNum := 0, threadId := -1 } with
    pool := s.pool.release p
    released := s.released ++ [(s.heap p).uniqueNum] }

/-- `retire_c::free_uop_resources`: the children, then the uop.
SRCLINE: retire.cc:485-499 -/
def freeUopResources (s : BackEnd) (p : UopPtr) : BackEnd :=
  ((s.heap p).childUops.foldl freeUop s).freeUop p

/-- The front of a reorder buffer is popped.  An empty one is out of the model.
SRCLINE: rob.cc:189-200 -/
def popRob (s : BackEnd) (t : ℤ) : Option BackEnd :=
  match (s.rob t).entries with
  | [] => none
  | p :: _ =>
      some { s.setRob t ((s.rob t).pop (s.heap p).uopNum) with
        popped := s.popped ++ s.numbers p }

/-- The first uop of an instruction counts the instruction.
SRCLINE: retire.cc:264-279 -/
def countInst (s : BackEnd) (p : UopPtr) : BackEnd :=
  let t := (s.heap p).threadId
  if (s.heap p).isitBOM then
    { s with instsRetired := Function.update s.instsRetired t (s.instsRetired t + 1) }
  else s

/-- The uop ends its thread: it is the last one, or the thread has retired enough.
SRCLINE: retire.cc:291-296 -/
def endsThread (k : BackKnobs) (s : BackEnd) (p : UopPtr) : Bool :=
  let uop := s.heap p
  (uop.lastUop || decide (k.maxInsts ≤ s.instsRetired uop.threadId)) &&
    !s.threadFinished uop.threadId

/-- What `terminate_thread` does to the core: a GPU core frees the reorder buffer of the thread.
SRCLINE: process_manager.cc:867-870, core.cc:683, rob_smc.cc:162-169 -/
def terminateThread (k : BackKnobs) (s : BackEnd) (t : ℤ) : BackEnd :=
  { s with
    threadFinished := Function.update s.threadFinished t true
    robs := if k.gpu then s.robs.erase t else s.robs }

/-- `dealloc_lb`, `dealloc_sb`, `dealloc_int_reg` and `dealloc_fp_reg`; the first two assert.
SRCLINE: resource.h:87-90, 114-117, 156-166 -/
def deallocResource (k : BackKnobs) (s : BackEnd) (r : PhysRes) : Option BackEnd :=
  if (r = .lb ∨ r = .sb) ∧ k.total r ≤ s.free r then none
  else some { s with free := Function.update s.free r (s.free r + 1) }

/-- The resources of a uop are given back by its flags.
SRCLINE: retire.cc:348-360 -/
def release (k : BackKnobs) (s : BackEnd) (p : UopPtr) : Option BackEnd :=
  [PhysRes.lb, .sb, .intReg, .fpReg].foldlM
    (fun s r => if (s.heap p).req r then s.deallocResource k r else some s) s

/-- The part of the retirement that both kinds of cores share, after the pop.
SRCLINE: retire.cc:259-367 -/
def retireUop (k : BackKnobs) (s : BackEnd) (p : UopPtr) : Option BackEnd := do
  let t := (s.heap p).threadId
  let s := s.countInst p
  let s := if s.endsThread k p then s.terminateThread k t else s
  let s ← s.release k p
  if k.useWb ∧ (s.heap p).memType = .st then some s
  else some (s.freeUopResources p)

/-- `smc_rob_c::get_n_uops_in_ready_order` appends to the list: the heads of the reorder
buffers that are done.  `order` is the order of the hash of the threads.
SRCLINE: rob_smc.cc:187-210 -/
def readyUops (s : BackEnd) (order : List ℤ) : List UopPtr :=
  order.filterMap fun t => match (s.rob t).entries with
    | [] => none
    | p :: _ =>
        if (s.heap p).doneCycle ≠ 0 ∧ (s.heap p).doneCycle ≤ s.cycle then some p else none

/-- One round of the loop on a GPU core: the reorder buffer of the uop's thread is popped.
SRCLINE: retire.cc:142-155 -/
def retireGpu (k : BackKnobs) (s : BackEnd) (p : UopPtr) : Option BackEnd :=
  if (s.heap p).threadId ∉ s.robs then none
  else (s.popRob (s.heap p).threadId).bind fun s => s.retireUop k p

/-- The loop on a GPU core, over what is left of the list.  The list is cleared when its end is
met before the width is used up.
SRCLINE: retire.cc:134-155 -/
def retireGpuLoop (k : BackKnobs) : ℕ → List UopPtr → BackEnd → Option BackEnd
  | 0, _, s => some s
  | _ + 1, [], s => some { s with uopList := [] }
  | n + 1, p :: l, s => (s.retireGpu k p).bind (retireGpuLoop k n l)

/-- `retire_c::get_min_wb`: the lowest version, and the least number among the uops that had it
when the scan met them.
SRCLINE: retire.cc:392-405 -/
def getMinWb (s : BackEnd) : ℕ × ℕ :=
  s.writeBuffer.foldl
    (fun (x : ℕ × ℕ) p =>
      if (s.heap p).memVersion ≤ x.1 then ((s.heap p).memVersion, min x.2 (s.heap p).uopNum)
      else x)
    (0xFFFF, 2 ^ 64 - 1)

/-- `retire_c::check_ld_ordering_wb`.
SRCLINE: retire.cc:379-389 -/
def checkLdOrderingWb (s : BackEnd) (p : UopPtr) : Bool :=
  !s.writeBuffer.isEmpty && decide (s.getMinWb.1 < (s.heap p).memVersion) &&
    decide ((s.heap p).uopNum ≤ s.getMinWb.2)

/-- What a CPU core does with the uop at the head of its reorder buffer. -/
inductive HeadVerdict where
  | wait | toWriteBuffer | retire
  deriving DecidableEq, Repr

/-- SRCLINE: retire.cc:170-210 -/
def headVerdict (k : BackKnobs) (s : BackEnd) (p : UopPtr) : HeadVerdict :=
  let uop := s.heap p
  if k.useWb ∧ uop.memType = .st ∧ uop.execCycle ≠ 0 then
    if s.writeBuffer.length = k.wbSize then .wait else .toWriteBuffer
  else if uop.doneCycle = 0 ∨ uop.execCycle = 0 ∨ s.cycle < uop.doneCycle then .wait
  else if uop.memType = .ld ∧ s.checkLdOrderingWb p then .wait
  else .retire

/-- The head goes into the write buffer before it is popped.
SRCLINE: retire.cc:170-180 -/
def insertWb (k : BackKnobs) (s : BackEnd) (p : UopPtr) : BackEnd :=
  if s.headVerdict k p = .toWriteBuffer then { s with writeBuffer := s.writeBuffer ++ [p] } else s

/-- A fence that retires updates the roots.
SRCLINE: retire.cc:212-249 -/
def retireFence (k : BackKnobs) (s : BackEnd) (p : UopPtr) : Option Rob :=
  if k.fenceEnable ∧ (s.heap p).uopType.isFence then (s.rob 0).updateRoot (s.heap p)
  else some (s.rob 0)

/-- One round of the loop on a CPU core for the head `p` that may go.
SRCLINE: retire.cc:180-257 -/
def retireCpu (k : BackKnobs) (s : BackEnd) (p : UopPtr) : Option BackEnd := do
  let r ← s.retireFence k p
  let s ← ((s.insertWb k p).setRob 0 r).popRob 0
  s.retireUop k p

/-- The loop on a CPU core.
SRCLINE: retire.cc:134-375 -/
def retireCpuLoop (k : BackKnobs) : ℕ → BackEnd → Option BackEnd
  | 0, s => some s
  | n + 1, s => match (s.rob 0).entries with
    | [] => some s
    | p :: _ =>
        if s.headVerdict k p = .wait then some s
        else (s.retireCpu k p).bind (retireCpuLoop k n)

/-! ## The write buffer -/

/-- The uop of the write buffer is complete. -/
def wbComplete (s : BackEnd) (p : UopPtr) : Bool :=
  let uop := s.heap p
  uop.doneCycle != 0 && decide (uop.doneCycle ≤ s.cycle) && uop.execCycle != 0

/-- What the loop of `drain_wb` does at a uop; `first` says that it is at the begin. -/
inductive DrainVerdict where
  | stop | keep | free
  deriving DecidableEq, Repr

/-- SRCLINE: retire.cc:417-452 -/
def drainVerdict (k : BackKnobs) (s : BackEnd) (first : Bool) (p : UopPtr) : DrainVerdict :=
  if !s.wbComplete p then if k.wbFifo then .stop else .keep
  else if k.acqRel then
    if (s.heap p).barType = .relBar then if first then .free else .keep
    else if (s.rob 0).versionOrderingCheck (s.heap p) then if k.wbFifo then .stop else .keep
    else .free
  else .free

/-- The loop of `drain_wb`; `kept` are the uops passed so far.
SRCLINE: retire.cc:413-458 -/
def drainLoop (k : BackKnobs) : List UopPtr → List UopPtr → BackEnd → BackEnd
  | kept, [], s => { s with writeBuffer := kept }
  | kept, p :: rest, s => match s.drainVerdict k kept.isEmpty p with
    | .stop => { s with writeBuffer := kept ++ p :: rest }
    | .keep => drainLoop k (kept ++ [p]) rest s
    | .free => drainLoop k kept rest (s.freeUopResources p)

/-- The lowest version in the write buffer; the variable has eight bits.
SRCLINE: retire.cc:470-475 -/
def lowestVersion (s : BackEnd) : ℕ :=
  s.writeBuffer.foldl
    (fun low p => if (s.heap p).memVersion < low then (s.heap p).memVersion % 2 ^ 8 else low) 255

/-- `retire_c::drain_wb`.
SRCLINE: retire.cc:407-476 -/
def drainWb (k : BackKnobs) (s : BackEnd) : Option BackEnd :=
  if s.writeBuffer.isEmpty then some s
  else do
    let s := s.drainLoop k [] s.writeBuffer
    let age := match s.writeBuffer with
      | [] => 2 ^ 64 - 1
      | p :: _ => (s.heap p).uopNum
    let r ← (s.rob 0).updateOrq age
    let r ← r.updateOrq s.lowestVersion
    some (s.setRob 0 r)

/-- The loop of `run_a_cycle` on both kinds of cores.
SRCLINE: retire.cc:125-371 -/
def retireLoop (k : BackKnobs) (s : BackEnd) (order : List ℤ) : Option BackEnd :=
  if k.gpu then
    let s := { s with uopList := s.uopList ++ s.readyUops order }
    s.retireGpuLoop k gpuRetireWidth s.uopList
  else s.retireCpuLoop k k.width

/-- `retire_c::run_a_cycle`.
SRCLINE: retire.cc:116-375 -/
def retireCycle (k : BackKnobs) (s : BackEnd) (order : List ℤ) : Option BackEnd := do
  let s ← s.retireLoop k order
  s.drainWb k

/-! ## Runs -/

/-- SRCLINE: core.cc:618-652, rob_smc.cc:147-159 -/
def startThread (k : BackKnobs) (s : BackEnd) (t : ℤ) : Option BackEnd :=
  let s := { s with
    instsRetired := Function.update s.instsRetired t 0
    threadFinished := Function.update s.threadFinished t false }
  if k.gpu then
    if t < 0 ∨ t ∈ s.robs ∨ k.numThreads ≤ s.robs.length then none
    else some { s.setRob t Rob.new with robs := s.robs ++ [t] }
  else some s

/-- One action.  The order of a retirement on a GPU core is one of the threads that have a
reorder buffer. -/
def step (k : BackKnobs) (s : BackEnd) : BackAct → Option BackEnd
  | .fetch n => some (s.fetch n)
  | .allocate allocqSpace => s.allocate k allocqSpace
  | .execute p e d => some (s.setUop p { s.heap p with execCycle := e, doneCycle := d })
  | .startThread t => s.startThread k t
  | .tick => some { s with cycle := s.cycle + 1 }
  | .retire order => if order.Perm s.robs then s.retireCycle k order else none

/-- A run. -/
def run (k : BackKnobs) (s : BackEnd) (acts : List BackAct) : Option BackEnd :=
  acts.foldlM (fun s a => s.step k a) s

end BackEnd

end MacSim.Model
