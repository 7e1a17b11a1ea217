import MacSim.Model.Hierarchy

/-!
# Memory requests

A `mem_req_s` is a heap object, and the lists of the memory system hold pointers to such
objects.  `ReqId` is the pointer.  The source creates requests in three places: the
constructor of `memory_c` fills the free list of every core, the request pool grows when it
is empty, and every write-back is a `new` of its own; `ReqId` keeps the three apart.

`uop_c` is reduced to what the memory system reads and writes.
-/

set_option autoImplicit false

namespace MacSim.Model

/-- A pointer to a `mem_req_s`, by the place that created it. -/
inductive ReqId where
  /-- created by the constructor of `memory_c`, for a core -/
  | mshr (core index : ℕ)
  /-- created by `pool_c::expand_pool` -/
  | pool (index : ℕ)
  /-- created by `new_wb_req` -/
  | wb (index : ℕ)
  deriving DecidableEq, Repr

/-- `Mem_Req_Type`.
SRCLINE: memreq_info.h:105-118 -/
inductive MemReqType where
  | ifetch | dfetch | dstore | iprf | dprf | wb
  | swDprf | swDprfNta | swDprfT0 | swDprfT1 | swDprfT2
  deriving DecidableEq, Repr

/-- `Mem_Req_State`.
SRCLINE: memreq_info.h:80-98 -/
inductive MemReqState where
  | inv | new | merged | outqueueNew | inNoc | outFill | outWb
  | fillNew | fillWaitDone | fillWaitFill
  | dramStart | dramCmd | dramData | dramDone | nocStart | nocDone
  deriving DecidableEq, Repr

/-- `NOC_TYPE`.
SRCLINE: memreq_info.h:68-75 -/
inductive NocType where
  | fill | ack | new | newWithData
  deriving DecidableEq, Repr

/-- The functions that are passed as `done_func`. -/
inductive DoneFunc where
  | dcacheFillLine | dcacheWriteAck | icacheFillLine | readonlyCacheFillLine
  deriving DecidableEq, Repr

/-- The four `queue_c` of a `dcu_c`. -/
inductive QueueKind where
  | inQueue | wbQueue | fillQueue | outQueue
  deriving DecidableEq, Repr

/-- A `queue_c *`. -/
structure QueueId where
  dcu : DcuId
  kind : QueueKind
  deriving DecidableEq, Repr

/-- The capacity given to each queue.
SRCLINE: memory.cc:281-285 -/
def QueueKind.size : QueueKind → ℕ
  | inQueue => 1024
  | wbQueue => 2048
  | fillQueue => 1024
  | outQueue => 2048

/-- `g_mem_priority`.
SRCLINE: memory.cc:83-95 -/
def MemReqType.priority : MemReqType → Counter
  | ifetch => 10
  | dfetch => 10
  | dstore => 10
  | wb => 5
  | _ => 0

/-- `mem_req_s`, without the fields that only feed statistics, the bug detector or the
memory encryption engine. -/
structure MemReq where
  applId : ℕ
  coreId : ℕ
  threadId : ℕ
  state : MemReqState
  type : MemReqType
  withData : Bool
  priority : Counter
  addr : Addr
  size : ℕ
  rdyCycle : Counter
  pc : Addr
  acc : Bool
  queue : Option QueueId
  cacheId : Level → ℕ
  uop : Option ℕ
  dirty : Bool
  done : Bool
  mergedReq : Option ReqId
  msgType : NocType
  bypass : Bool
  skip : Bool
  doneFunc : Option DoneFunc
  merge : List ReqId

/-- `mem_req_s::init`; it leaves `m_with_data`, `m_skip` and `m_merge` alone.
SRCLINE: memreq_info.cc:70-106 -/
def MemReq.init (req : MemReq) : MemReq :=
  { req with
    applId := 0, coreId := 0, threadId := 0, state := .inv, type := .ifetch, priority := 0,
    addr := 0, size := 0, rdyCycle := 0, pc := 0, acc := false, queue := none,
    cacheId := fun _ => 0, uop := none, dirty := false, done := false, mergedReq := none,
    msgType := .fill, bypass := false, doneFunc := none }

/-- A newly constructed request.  The two fields that no constructor sets are written before
they are read. -/
def MemReq.fresh : MemReq :=
  { applId := 0, coreId := 0, threadId := 0, state := .inv, type := .ifetch,
    withData := false, priority := 0, addr := 0, size := 0, rdyCycle := 0, pc := 0,
    acc := false, queue := none, cacheId := fun _ => 0, uop := none, dirty := false,
    done := false, mergedReq := none, msgType := .fill, bypass := false, skip := false,
    doneFunc := none, merge := [] }

/-- The address test by which a queue or an MSHR recognises a request that covers the
bytes asked for.
SRCLINE: memory.cc:1886-1896 -/
def MemReq.covers (req : MemReq) (addr : Addr) (size : ℕ) : Bool :=
  decide (req.addr ≤ addr) &&
    decide (addr + BitVec.ofNat 64 size ≤ req.addr + BitVec.ofNat 64 req.size)

/-- `Mem_Type`.
SRCLINE: uop.h:415-436 -/
inductive MemType where
  | notMem | ld | st | pf | wh | evict | swprefNta | swprefT0 | swprefT1 | swprefT2
  | ldLm | ldSm | ldGm | stLm | stSm | stGm | ldCm | ldTm | ldPm
  deriving DecidableEq, Repr

/-- `IsStore`.
SRCLINE: memory.cc:100-110 -/
def MemType.isStore : MemType → Bool
  | st | stLm | stSm | stGm => true
  | _ => false

/-- The values of `Uop_State` that the memory system writes, and one for all the others. -/
inductive UopState where
  | other | dcacheBegin | dcachePortUnavailable | dcacheMemAccessDenied | scheduled
  deriving DecidableEq, Repr

/-- What the memory system uses of `uop_c`. -/
structure Uop where
  coreId : ℕ
  threadId : ℕ
  memType : MemType
  memSize : ℕ
  pc : Addr
  paddr : Addr
  state : UopState
  doneCycle : Counter
  parentUop : Option ℕ
  numChildUops : ℕ
  numChildUopsDone : ℕ
  bypassLlc : Bool
  skipLlc : Bool
  deriving Repr

/-- `dcache_data_s`.
SRCLINE: memory.h:65-71 -/
structure DcacheData where
  dirty : Bool
  fetchCycle : Counter
  coreId : ℕ
  pc : Addr
  tid : ℕ
  deriving DecidableEq, Repr, Inhabited

/-- `port_c`.
SRCLINE: port.cc:52-68 -/
structure CachePort where
  readLastCycle : Counter
  writeLastCycle : Counter
  numReadPorts : ℕ
  readPortsInUse : ℕ
  numWritePorts : ℕ
  writePortsInUse : ℕ
  writesPreventReads : Bool
  deriving DecidableEq, Repr

namespace CachePort

def new (read write : ℕ) (writesPreventReads : Bool) : CachePort :=
  { readLastCycle := 0, writeLastCycle := 0, numReadPorts := read, readPortsInUse := 0,
    numWritePorts := write, writePortsInUse := 0, writesPreventReads := writesPreventReads }

/-- `port_c::get_read_port`; `none` is a failed assertion.
SRCLINE: port.cc:85-110 -/
def getReadPort (p : CachePort) (cycle : Counter) : Option (CachePort × Bool) :=
  if p.readLastCycle ≠ cycle then
    if 0 < p.numReadPorts then
      some ({ p with readLastCycle := cycle, readPortsInUse := 1 }, true)
    else none
  else if p.readPortsInUse = p.numReadPorts then some (p, false)
  else if p.writePortsInUse ≠ 0 ∧ p.writesPreventReads then some (p, false)
  else some ({ p with readPortsInUse := p.readPortsInUse + 1 }, true)

/-- `port_c::get_write_port`; `none` is a failed assertion.
SRCLINE: port.cc:113-136 -/
def getWritePort (p : CachePort) (cycle : Counter) : Option (CachePort × Bool) :=
  if p.writeLastCycle ≠ cycle then
    if 0 < p.numWritePorts then
      some ({ p with writeLastCycle := cycle, writePortsInUse := 1 }, true)
    else none
  else if p.writePortsInUse = p.numWritePorts then some (p, false)
  else if p.writesPreventReads ∧ p.readPortsInUse ≠ 0 then none
  else some ({ p with writePortsInUse := p.writePortsInUse + 1 }, true)

end CachePort

end MacSim.Model
