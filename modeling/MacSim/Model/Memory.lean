import MacSim.Model.MemReq

/-!
# The memory system: requests, MSHRs and completion

`memory_c` owns the miss-status registers: for every core a list of the requests in use and
a list of the free ones.  A new request is first compared with all requests in use; it may
be dropped, promote a prefetch, be merged into a request for the same bytes, or travel
through the caches on its own.  When the data has arrived, the completion function of a
request completes the requests merged into it, frees them, and then completes the request
itself; each of these completions may be refused by the L1 cache and is then repeated.

Every assertion of the source is an `Option`: `none` is a run that stops there.  The
completion functions call each other along the merge lists, so they take fuel; `none` also
stands for a call that does not return within it.  Where the write-back of a victim is pushed,
the definition takes what stands in place of the assertion on the push, and the function of the
source is that definition at a failing assertion.

`log` is not part of the source.  It records what the analyses speak about: which requests
were refused, completed, freed, written back.
-/

set_option autoImplicit false

namespace MacSim.Model

/-! ## Configuration -/

/-- The arguments of `dcu_c::init`; a missing index is the source's `-1`.
SRCLINE: memory.cc:318-327 -/
structure DcuFlags where
  nextId : Option ℕ
  prevId : Option ℕ
  done : Bool
  coupledUp : Bool
  coupledDown : Bool
  disable : Bool
  hasRouter : Bool
  deriving DecidableEq, Repr

/-- How each organisation initialises its caches.  Three organisations never initialise
their L3 caches, whose flags are then an argument.
SRCLINE: memory.cc:2315-2324, 2334-2349, 2358-2367, 2383-2392, 2407-2424, 2476-2496, 2512-2530 -/
def Organisation.flags (junk : ℕ → DcuFlags) (org : Organisation) (d : DcuId) : DcuFlags :=
  let ii := some d.id
  match org, d.level with
  | .llcCoupledNetwork, .l1 => ⟨ii, none, false, false, true, false, false⟩
  | .llcCoupledNetwork, .l2 => ⟨ii, ii, true, true, true, false, true⟩
  | .llcCoupledNetwork, .llc => ⟨none, ii, false, true, false, false, true⟩
  | .llcDecoupledNetwork, .l1 => ⟨ii, none, false, false, true, false, false⟩
  | .llcDecoupledNetwork, .l2 => ⟨none, ii, true, true, false, false, true⟩
  | .llcDecoupledNetwork, .l3 => ⟨none, none, false, false, false, true, true⟩
  | .llcDecoupledNetwork, .llc => ⟨none, none, false, false, false, false, true⟩
  | .l2CoupledLocal, .l1 => ⟨ii, none, false, false, true, false, false⟩
  | .l2CoupledLocal, .l2 => ⟨ii, ii, true, true, true, false, true⟩
  | .l2CoupledLocal, .llc => ⟨none, ii, false, true, false, true, true⟩
  | .noCache, .l1 => ⟨ii, none, false, false, true, true, false⟩
  | .noCache, .l2 => ⟨ii, ii, true, true, true, true, false⟩
  | .noCache, .llc => ⟨none, ii, false, true, false, true, true⟩
  | .l2DecoupledNetwork, .l1 => ⟨ii, none, false, false, true, false, false⟩
  | .l2DecoupledNetwork, .l2 => ⟨none, ii, true, true, false, true, true⟩
  | .l2DecoupledNetwork, .l3 => ⟨none, none, false, false, false, true, true⟩
  | .l2DecoupledNetwork, .llc => ⟨none, none, false, false, false, false, true⟩
  | .l2DecoupledLocal, .l1 => ⟨ii, none, false, false, true, false, false⟩
  | .l2DecoupledLocal, .l2 => ⟨none, ii, true, true, false, true, false⟩
  | .l2DecoupledLocal, .l3 => ⟨none, none, false, false, false, true, true⟩
  | .l2DecoupledLocal, .llc => ⟨none, none, false, false, false, false, true⟩
  | .igpuNetwork, .l1 => ⟨ii, none, false, false, true, true, false⟩
  | .igpuNetwork, .l2 => ⟨none, ii, true, true, true, true, true⟩
  | .igpuNetwork, .l3 => ⟨none, none, false, false, false, false, true⟩
  | .igpuNetwork, .llc => ⟨none, none, false, false, false, false, true⟩
  | _, _ => junk d.id

/-- What the constructor of a `dcu_c` takes from the knobs.
SRCLINE: config.h:37-110 -/
structure DcuParam where
  latency : Counter
  banks : ℕ
  lineSize : ℕ
  accSim : Bool
  deriving DecidableEq, Repr

/-- The knobs that the memory system reads. -/
structure MemKnobs where
  heteroMemPriorityCpu : Bool
  heteroMemPriorityGpu : Bool
  computeCapability2 : Bool
  useIncomingTidCidForWb : Bool
  dcacheInfinitePort : Bool
  perfectDcache : Bool
  byteLevelAccess : Bool
  heteroGpuCoreDisable : ℤ
  simpleNoc : Bool
  deriving DecidableEq, Repr

/-- What is fixed during a run. -/
structure MemConfig where
  org : Organisation
  numCore : ℕ
  mshrSize : ℕ
  addr : AddrKnobs
  cacheKnobs : CacheKnobs
  knobs : MemKnobs
  flags : DcuId → DcuFlags
  param : DcuId → DcuParam
  /-- `get_appl_id` of a core, by thread -/
  applId : ℕ → ℕ → ℕ

namespace MemConfig

/-- `m_latency` after `init`: one cycle for a disabled level. -/
def latency (cfg : MemConfig) (d : DcuId) : Counter :=
  if (cfg.flags d).disable then 1 else (cfg.param d).latency

/-- The requests that bypass the MSHRs: stores of a GPU of compute capability 2.0. -/
def writeThrough (cfg : MemConfig) (type : MemReqType) (acc : Bool) : Bool :=
  acc && cfg.knobs.computeCapability2 && decide (type = .dstore)

end MemConfig

/-! ## State -/

/-- What changes in a `dcu_c`. -/
structure Dcu where
  queue : QueueKind → List ReqId
  retryQueue : List ReqId
  cycle : Counter
  cache : Option (Cache DcacheData)
  port : ℕ → CachePort

/-- What `icache_fill_line` uses of `frontend_c`; a thread without fetch data has no address
it waits for. -/
structure Frontend where
  icache : Cache Unit
  lastTerminatedTid : ℕ
  uniqueScheduledThreadNum : ℕ
  fetchReadyAddr : ℕ → Option Addr

/-- What the log records. -/
inductive Event where
  /-- the input queue of a level was full when another level or the network offered a request -/
  | refused (d : DcuId) (r : ReqId)
  /-- a write-back was served by a level whose cache now holds its line dirty -/
  | dirtied (r : ReqId) (d : DcuId)
  /-- a write-back was marked done -/
  | wbDone (r : ReqId)
  /-- a request was taken over by a memory controller -/
  | toDram (r : ReqId)
  /-- a completion function was called on a request -/
  | called (r : ReqId)
  /-- the completion of a request took effect on its uop -/
  | completed (r : ReqId)
  /-- a request was freed -/
  | freed (r : ReqId)
  /-- a store of a CPU core completed; `dirty` tells whether its line was dirty on the way to
  memory at that moment -/
  | storeDone (r : ReqId) (dirty : Bool)
  deriving DecidableEq, Repr

/-- The state of the memory system, of its caches, and of what the rest of the simulator
shares with it.  `net` holds the requests that travel in the network with their
destinations, `rx` the receive buffers of the routers and `dram` the requests inside the
memory controllers. -/
structure Mem where
  req : ReqId → MemReq
  mshr : ℕ → List ReqId
  mshrFreeList : ℕ → List ReqId
  memReqPool : List ReqId
  nextPool : ℕ
  nextWb : ℕ
  dcu : DcuId → Dcu
  cycle : Counter
  stopPrefetch : Counter
  coreCycle : ℕ → Counter
  simCycle : Counter
  uop : ℕ → Uop
  frontend : ℕ → Frontend
  constCache : ℕ → Cache Unit
  textureCache : ℕ → Cache Unit
  net : List (DcuId × ReqId)
  rx : DcuId → List ReqId
  dram : List ReqId
  log : List Event

namespace Mem

/-- Write some fields of a request. -/
def modReq (s : Mem) (r : ReqId) (f : MemReq → MemReq) : Mem :=
  { s with req := Function.update s.req r (f (s.req r)) }

/-- Write some fields of a `dcu_c`. -/
def modDcu (s : Mem) (d : DcuId) (f : Dcu → Dcu) : Mem :=
  { s with dcu := Function.update s.dcu d (f (s.dcu d)) }

/-- Write some fields of a uop. -/
def modUop (s : Mem) (u : ℕ) (f : Uop → Uop) : Mem :=
  { s with uop := Function.update s.uop u (f (s.uop u)) }

def record (s : Mem) (e : Event) : Mem := { s with log := e :: s.log }

/-- The entries of a queue. -/
def entries (s : Mem) (q : QueueId) : List ReqId := (s.dcu q.dcu).queue q.kind

def setEntries (s : Mem) (q : QueueId) (l : List ReqId) : Mem :=
  s.modDcu q.dcu fun c => { c with queue := Function.update c.queue q.kind l }

/-! ## Queues -/

/-- `queue_c::sort_func`: whether the first request goes before the second.
SRCLINE: memory.cc:203-217 -/
def sortFunc (k : MemKnobs) (a b : MemReq) : Bool :=
  if k.heteroMemPriorityCpu && a.acc != b.acc then !a.acc
  else if !k.heteroMemPriorityCpu && k.heteroMemPriorityGpu && a.acc != b.acc then a.acc
  else decide (b.priority < a.priority)

/-- `queue_c::full`. -/
def full (s : Mem) (q : QueueId) : Bool := decide ((s.entries q).length = q.kind.size)

/-- `list::sort`, which keeps the order of equal elements. -/
def sorted (cfg : MemConfig) (s : Mem) (l : List ReqId) : List ReqId :=
  l.insertionSort fun a b => sortFunc cfg.knobs (s.req b) (s.req a) = false

/-- `queue_c::push`.
SRCLINE: memory.cc:256-264 -/
def push (cfg : MemConfig) (s : Mem) (q : QueueId) (r : ReqId) : Mem × Bool :=
  if s.full q then (s, false)
  else
    let s := s.modReq r fun req => { req with queue := some q }
    (s.setEntries q (s.sorted cfg (s.entries q ++ [r])), true)

/-- `queue_c::pop`. -/
def pop (s : Mem) (q : QueueId) (r : ReqId) : Mem :=
  s.setEntries q ((s.entries q).filter (· ≠ r))

/-- `dcu_c::fill`.
SRCLINE: memory.cc:637-662 -/
def fill (cfg : MemConfig) (s : Mem) (d : DcuId) (r : ReqId) : Mem × Bool :=
  let p := s.push cfg ⟨d, .fillQueue⟩ r
  if p.2 then
    (p.1.modReq r fun req =>
      { req with state := .fillNew, rdyCycle := (s.dcu d).cycle + 1 }, true)
  else (s, false)

/-- `dcu_c::insert`: a refused request goes to the retry queue.
SRCLINE: memory.cc:665-677 -/
def insert (cfg : MemConfig) (s : Mem) (d : DcuId) (r : ReqId) : Mem × Bool :=
  let p := s.push cfg ⟨d, .inQueue⟩ r
  if p.2 then
    (p.1.modReq r fun req => { req with rdyCycle := (s.dcu d).cycle + cfg.latency d }, true)
  else (s.modDcu d fun c => { c with retryQueue := c.retryQueue ++ [r] }, false)

/-! ## Caches -/

/-- A write port of a cache bank; `none` is a failed assertion. -/
def getWritePort (s : Mem) (d : DcuId) (bank : ℕ) (cycle : Counter) : Option (Mem × Bool) :=
  ((s.dcu d).port bank |>.getWritePort cycle).map fun p =>
    (s.modDcu d fun c => { c with port := Function.update c.port bank p.1 }, p.2)

/-- A read port of a cache bank; `none` is a failed assertion. -/
def getReadPort (s : Mem) (d : DcuId) (bank : ℕ) (cycle : Counter) : Option (Mem × Bool) :=
  ((s.dcu d).port bank |>.getReadPort cycle).map fun p =>
    (s.modDcu d fun c => { c with port := Function.update c.port bank p.1 }, p.2)

def setCache (s : Mem) (d : DcuId) (cache : Cache DcacheData) : Mem :=
  s.modDcu d fun c => { c with cache := some cache }

/-- Whether the line of an address is present and dirty in the cache of a level. -/
def lineDirty (s : Mem) (d : DcuId) (addr : Addr) : Bool :=
  (s.dcu d).cache.any fun c => ((c.lookup addr).bind c.data?).any (·.dirty)

/-- Whether the line of a request is dirty in a cache between its core and the memory. -/
def dirtyOnPath (cfg : MemConfig) (s : Mem) (r : ReqId) : Bool :=
  [Level.l1, .l2, .l3, .llc].any fun l =>
    let d : DcuId := ⟨l, (s.req r).cacheId l⟩
    !(cfg.flags d).disable && s.lineDirty d (s.req r).addr

/-- `memory_c::new_wb_req`.
SRCLINE: memory.cc:2098-2139 -/
def newWbReq (cfg : MemConfig) (s : Mem) (addr : Addr) (size : ℕ) (ptx : Bool)
    (data : DcacheData) : Mem × ReqId :=
  let r := ReqId.wb s.nextWb
  let req : MemReq :=
    { MemReq.fresh with
      applId := cfg.applId data.coreId data.tid
      coreId := data.coreId
      threadId := data.tid
      state := .new
      type := .wb
      priority := MemReqType.priority .wb
      addr := addr
      size := size
      rdyCycle := s.cycle + 1
      pc := data.pc
      acc := ptx
      dirty := true
      cacheId := cfg.addr.setCacheId cfg.org addr data.coreId fun _ => 0 }
  ({ s with req := Function.update s.req r req, nextWb := s.nextWb + 1 }, r)

/-- What a failed assertion leaves. -/
def assertionFails : Mem → Option Mem := fun _ => none

/-- The write-back of a dirty victim, with `overflow` in place of the assertion that the
write-back queue has room: `if (!m_wb_queue->push(wb)) overflow`.
SRCLINE: memory.cc:1140-1163, 1433-1458 -/
def evictOr (overflow : Mem → Option Mem) (cfg : MemConfig) (s : Mem) (d : DcuId) (r : ReqId)
    (victim : Addr) (data : DcacheData) : Option Mem :=
  let data :=
    if cfg.knobs.useIncomingTidCidForWb then
      { data with coreId := (s.req r).coreId, tid := (s.req r).threadId }
    else data
  let w := s.newWbReq cfg victim (cfg.param d).lineSize (cfg.param d).accSim data
  let s' := w.1.modReq w.2 fun wb => { wb with rdyCycle := (s.dcu d).cycle + 1 }
  let q := s'.push cfg ⟨d, .wbQueue⟩ w.2
  if q.2 then some q.1 else overflow s'

/-- The write-back of a dirty victim, with the assertion.
SRCLINE: memory.cc:1140-1163, 1433-1458 -/
def evict (cfg : MemConfig) (s : Mem) (d : DcuId) (r : ReqId) (victim : Addr)
    (data : DcacheData) : Option Mem :=
  s.evictOr assertionFails cfg d r victim data

/-- Insertion of the line of a request into a cache, as `process_fill_queue` and `done` do
it: a valid dirty victim becomes a write-back request in the write-back queue, and the line
is set up from the request.
SRCLINE: memory.cc:1125-1182, 1421-1471 -/
def insertLineOr (overflow : Mem → Option Mem) (cfg : MemConfig) (s : Mem) (d : DcuId)
    (cache : Cache DcacheData) (r : ReqId) : Option Mem :=
  let req := s.req r
  (cache.insertCache cfg.cacheKnobs s.simCycle req.addr req.applId req.acc).bind fun p =>
    (p.2.2.data? p.1).bind fun data =>
      let setup := p.2.2.modifyData p.1 fun _ =>
        { dirty := req.dirty, fetchCycle := (s.dcu d).cycle, coreId := req.coreId,
          pc := req.pc, tid := req.threadId }
      if p.2.1 ≠ 0 ∧ data.dirty = true then
        (s.evictOr overflow cfg d r p.2.1 data).map fun s => s.setCache d setup
      else some (s.setCache d setup)

/-- The insertion of a line, with the assertion.
SRCLINE: memory.cc:1125-1182, 1421-1471 -/
def insertLine (cfg : MemConfig) (s : Mem) (d : DcuId) (cache : Cache DcacheData) (r : ReqId) :
    Option Mem :=
  s.insertLineOr assertionFails cfg d cache r

/-! ## Completion -/

/-- The completion of a uop: it is scheduled for the next cycle, and its parent counts it
and is scheduled with the last of its children.
SRCLINE: memory.cc:1482-1514, readonly_cache.cc:196-230 -/
def completeUop (s : Mem) (u : ℕ) (countParent : Bool) : Mem :=
  let now := s.coreCycle (s.uop u).coreId + 1
  let s := s.modUop u fun x => { x with doneCycle := now, state := .scheduled }
  if countParent then
    match (s.uop u).parentUop with
    | none => s
    | some p =>
        let s := s.modUop p fun x => { x with numChildUopsDone := x.numChildUopsDone + 1 }
        if (s.uop p).numChildUopsDone = (s.uop p).numChildUops then
          s.modUop p fun x => { x with doneCycle := now, state := .scheduled }
        else s
  else s

/-- The end of `dcu_c::done`: the uop of the request completes.  The log keeps the stores of
the CPU cores.
SRCLINE: memory.cc:1482-1516 -/
def doneEffect (cfg : MemConfig) (d : DcuId) (r : ReqId) (s : Mem) : Mem :=
  let s :=
    if (s.req r).type = .dstore ∧ (s.req r).acc = false then
      s.record (.storeDone r (s.dirtyOnPath cfg r))
    else s
  match (s.req r).uop with
  | none => s
  | some u => (s.completeUop u (cfg.param d).accSim).record (.completed r)

/-- `dcu_c::done` of the L1 cache `d`, with `overflow` in place of the assertion.
SRCLINE: memory.cc:1397-1519 -/
def dcuDoneOr (overflow : Mem → Option Mem) (cfg : MemConfig) (s : Mem) (d : DcuId) (r : ReqId) :
    Option (Mem × Bool) :=
  if s.full ⟨d, .wbQueue⟩ then some (s, false)
  else if (cfg.flags d).disable then some (doneEffect cfg d r s, true)
  else
    (s.dcu d).cache.bind fun cache =>
      (s.getWritePort d (cache.param.getBankNum (s.req r).addr) (s.dcu d).cycle).bind fun p =>
        if p.2 then
          match cache.accessCache p.1.simCycle (p.1.req r).addr false with
          | (none, cache) =>
              (p.1.insertLineOr overflow cfg d cache r).map fun s => (doneEffect cfg d r s, true)
          | (some l, cache) =>
              some (doneEffect cfg d r (p.1.setCache d (cache.modifyData l fun line =>
                { line with dirty := line.dirty || (p.1.req r).dirty })), true)
        else some (p.1, false)

/-- `dcu_c::done`, with the assertion.
SRCLINE: memory.cc:1397-1519 -/
def dcuDone (cfg : MemConfig) (s : Mem) (d : DcuId) (r : ReqId) : Option (Mem × Bool) :=
  s.dcuDoneOr assertionFails cfg d r

/-- `memory_c::done`, with `overflow` in place of the assertion.
SRCLINE: memory.cc:2039-2041 -/
def doneOr (overflow : Mem → Option Mem) (cfg : MemConfig) (s : Mem) (r : ReqId) :
    Option (Mem × Bool) :=
  s.dcuDoneOr overflow cfg ⟨.l1, (s.req r).cacheId .l1⟩ r

/-- `memory_c::done`.
SRCLINE: memory.cc:2039-2041 -/
def done (cfg : MemConfig) (s : Mem) (r : ReqId) : Option (Mem × Bool) :=
  s.doneOr assertionFails cfg r

/-- `memory_c::write_done` and `dcu_c::write_done`; a request without a uop is a null
pointer.
SRCLINE: memory.cc:1521-1553, 2043-2045 -/
def writeDone (cfg : MemConfig) (s : Mem) (r : ReqId) : Option Mem :=
  (s.req r).uop.map fun u =>
    (s.completeUop u (cfg.param ⟨.l1, (s.req r).cacheId .l1⟩).accSim).record (.completed r)

/-- `frontend_c::icache_fill_line`; it always succeeds.
SRCLINE: frontend.cc:706-750 -/
def icacheFillLine (cfg : MemConfig) (s : Mem) (r : ReqId) : Option Mem :=
  let req := s.req r
  let fe := s.frontend req.coreId
  let filled : Option (Cache Unit) :=
    if (fe.icache.accessCache s.simCycle req.addr false).1.isNone then
      (fe.icache.insertCache cfg.cacheKnobs s.simCycle req.addr req.applId req.acc).map (·.2.2)
    else some fe.icache
  filled.map fun icache =>
    { s with
      frontend := Function.update s.frontend req.coreId
        { fe with
          icache := icache
          fetchReadyAddr := fun t =>
            if fe.lastTerminatedTid ≤ t ∧ t < fe.uniqueScheduledThreadNum ∧
                fe.fetchReadyAddr t = some req.addr then some 0
            else fe.fetchReadyAddr t } }

/-- `readonly_cache_c::cache_fill_line`, which always succeeds, of the cache that the
wrapper selects by the type of the uop.
SRCLINE: readonly_cache.cc:166-235 -/
def cacheFillLine (cfg : MemConfig) (s : Mem) (r : ReqId) : Option Mem :=
  let req := s.req r
  req.uop.bind fun u =>
    let filled : Option Mem :=
      match (s.uop u).memType with
      | .ldCm =>
          ((s.constCache req.coreId).insertCache cfg.cacheKnobs s.simCycle req.addr req.applId
            req.acc).map fun p =>
              { s with constCache := Function.update s.constCache req.coreId p.2.2 }
      | .ldTm =>
          ((s.textureCache req.coreId).insertCache cfg.cacheKnobs s.simCycle req.addr req.applId
            req.acc).map fun p =>
              { s with textureCache := Function.update s.textureCache req.coreId p.2.2 }
      | _ => none
    filled.map fun s => (s.completeUop u true).record (.completed r)

/-- Call the completion function of a request, if it has one. -/
def callback (wrapper : DoneFunc → ReqId → Mem → Option (Mem × Bool)) (r : ReqId) (s : Mem) :
    Option (Mem × Bool) :=
  match (s.req r).doneFunc with
  | none => some (s, true)
  | some f => wrapper f r s

/-- The end of `free_req`: a write-back is deleted; any other request is cleared and goes back
to the free list of the core given.
SRCLINE: memory.cc:1993-2003 -/
def clearReq (coreId : ℕ) (r : ReqId) (s : Mem) : Mem :=
  if (s.req r).type = .wb then s.record (.freed r)
  else
    { (s.record (.freed r)).modReq r MemReq.init with
      mshr := Function.update s.mshr coreId ((s.mshr coreId).filter (· ≠ r))
      mshrFreeList := Function.update s.mshrFreeList coreId (s.mshrFreeList coreId ++ [r]) }

/-- `memory_c::free_req`; `none` is the failed assertion that no merged request is left.
SRCLINE: memory.cc:1983-2004 -/
def freeReq (wrapper : DoneFunc → ReqId → Mem → Option (Mem × Bool)) (coreId : ℕ) (r : ReqId)
    (s : Mem) : Option Mem :=
  let served : Option Mem :=
    if (s.req r).merge = [] then some s else (wrapper .dcacheFillLine r s).map (·.1)
  served.bind fun s => if (s.req r).merge = [] then some (clearReq coreId r s) else none

/-- The first loop of the three fill wrappers: the merged requests are completed one by one,
those that succeed are collected.
SRCLINE: memory.cc:120-126, frontend.cc:76-82, readonly_cache.cc:152-158 -/
def serveMerged (wrapper : DoneFunc → ReqId → Mem → Option (Mem × Bool)) :
    List ReqId → Mem → List ReqId → Bool → Option (Mem × List ReqId × Bool)
  | [], s, doneList, result => some (s, doneList, result)
  | c :: rest, s, doneList, result =>
      (callback wrapper c s).bind fun p =>
        if p.2 then serveMerged wrapper rest p.1 (doneList ++ [c]) result
        else serveMerged wrapper rest p.1 doneList false

/-- The second loop: the completed requests leave the merge list and are freed.
SRCLINE: memory.cc:129-132, frontend.cc:85-88, readonly_cache.cc:161-164 -/
def releaseMerged (wrapper : DoneFunc → ReqId → Mem → Option (Mem × Bool)) (r : ReqId) :
    List ReqId → Mem → Option Mem
  | [], s => some s
  | c :: rest, s =>
      let s := s.modReq r fun req => { req with merge := req.merge.filter (· ≠ c) }
      (freeReq wrapper (s.req c).coreId c s).bind (releaseMerged wrapper r rest)

/-- Both loops: the merged requests of a request are completed and freed.  The result tells
whether none was refused. -/
def completeMerged (wrapper : DoneFunc → ReqId → Mem → Option (Mem × Bool)) (r : ReqId)
    (s : Mem) : Option (Mem × Bool) :=
  (serveMerged wrapper (s.req r).merge s [] true).bind fun p =>
    (releaseMerged wrapper r p.2.1 p.1).map fun s => (s, p.2.2)

/-- The four completion functions.  `dcache_fill_line_wrapper` and the read-only wrapper
complete the request itself only when all its merged requests were completed, the
instruction cache wrapper in any case.
SRCLINE: memory.cc:117-145, frontend.cc:69-100, readonly_cache.cc:148-183 -/
def wrapperOr (overflow : Mem → Option Mem) (cfg : MemConfig) :
    ℕ → DoneFunc → ReqId → Mem → Option (Mem × Bool)
  | 0, _, _, _ => none
  | fuel + 1, f, r, s =>
      let s := s.record (.called r)
      match f with
      | .dcacheFillLine =>
          (completeMerged (wrapperOr overflow cfg fuel) r s).bind fun p =>
            if p.2 && (p.1.req r).doneFunc.isSome then p.1.doneOr overflow cfg r else some p
      | .icacheFillLine =>
          (completeMerged (wrapperOr overflow cfg fuel) r s).bind fun p =>
            (p.1.icacheFillLine cfg r).map fun s => (s, p.2)
      | .readonlyCacheFillLine =>
          (completeMerged (wrapperOr overflow cfg fuel) r s).bind fun p =>
            if p.2 then (p.1.cacheFillLine cfg r).map fun s => (s, true) else some p
      | .dcacheWriteAck => (s.writeDone cfg r).map fun s => (s, true)

/-- The completion functions, with the assertion.
SRCLINE: memory.cc:117-145, frontend.cc:69-100, readonly_cache.cc:148-183 -/
def wrapper (cfg : MemConfig) : ℕ → DoneFunc → ReqId → Mem → Option (Mem × Bool) :=
  wrapperOr assertionFails cfg

/-- Fuel for a completion function.  The merge lists form a forest of requests in use, so no
call chain is longer than the number of requests that were ever created. -/
def fuel (cfg : MemConfig) (s : Mem) : ℕ := cfg.numCore * cfg.mshrSize + s.nextPool + s.nextWb + 1

/-! ## New requests -/

/-- The arguments of `new_mem_req` that it uses. -/
structure ReqArgs where
  type : MemReqType
  addr : Addr
  size : ℕ
  withData : Bool
  delay : Counter
  uop : Option ℕ
  doneFunc : Option DoneFunc
  coreId : ℕ
  threadId : ℕ
  ptx : Bool

/-- `memory_c::search_req`. -/
def searchReq (s : Mem) (coreId : ℕ) (addr : Addr) (size : ℕ) : Option ReqId :=
  (s.mshr coreId).find? fun r => (s.req r).covers addr size

/-- The search of `new_mem_req` through the MSHRs of all cores.
SRCLINE: memory.cc:1744-1748 -/
def matchingReq (cfg : MemConfig) (s : Mem) (addr : Addr) (size : ℕ) : Option ReqId :=
  (List.range cfg.numCore).findSome? fun i => s.searchReq i addr size

/-- `memory_c::allocate_new_entry`: the last free entry of the core.
SRCLINE: memory.cc:1875-1883 -/
def allocateNewEntry (s : Mem) (coreId : ℕ) : Option (Mem × ReqId) :=
  ((s.mshrFreeList coreId).getLast?).map fun r =>
    ({ s with
        mshr := Function.update s.mshr coreId (s.mshr coreId ++ [r])
        mshrFreeList := Function.update s.mshrFreeList coreId (s.mshrFreeList coreId).dropLast },
      r)

/-- `pool_c::acquire_entry`. -/
def acquireEntry (s : Mem) : Mem × ReqId :=
  match s.memReqPool with
  | r :: rest => ({ s with memReqPool := rest }, r)
  | [] =>
      ({ s with
          req := Function.update s.req (.pool s.nextPool) MemReq.fresh
          nextPool := s.nextPool + 1 },
        .pool s.nextPool)

/-- `memory_c::free_write_req`. -/
def freeWriteReq (s : Mem) (r : ReqId) : Mem :=
  { s.record (.freed r) with memReqPool := r :: s.memReqPool }

/-- `memory_c::init_new_req`; `none` is the failed assertion that the request has no merged
requests.
SRCLINE: memory.cc:1899-1935 -/
def initNewReq (cfg : MemConfig) (s : Mem) (r : ReqId) (a : ReqArgs) : Option Mem :=
  if (s.req r).merge = [] then
    some (s.modReq r fun req =>
      { req with
        applId := cfg.applId a.coreId a.threadId
        coreId := a.coreId
        threadId := a.threadId
        state := .new
        type := a.type
        priority := a.type.priority
        addr := a.addr
        size := a.size
        withData := a.withData
        rdyCycle := s.cycle + a.delay
        pc := (a.uop.map fun u => (s.uop u).pc).getD 0
        acc := a.ptx
        doneFunc := a.doneFunc
        uop := if a.type = .dprf then none else a.uop
        dirty := false
        done := false
        mergedReq := none
        bypass := (a.uop.map fun u => (s.uop u).bypassLlc).getD false
        skip := (a.uop.map fun u => (s.uop u).skipLlc).getD false
        cacheId := cfg.addr.setCacheId cfg.org a.addr a.coreId req.cacheId })
  else none

/-- `memory_c::adjust_req`, the promotion of a prefetch.
SRCLINE: memory.cc:1938-1969 -/
def adjustReq (cfg : MemConfig) (s : Mem) (r : ReqId) (a : ReqArgs) : Mem :=
  s.modReq r fun req =>
    { req with
      applId := cfg.applId a.coreId a.threadId
      coreId := a.coreId
      threadId := a.threadId
      type := a.type
      priority := a.type.priority
      addr := a.addr
      size := a.size
      pc := (a.uop.map fun u => (s.uop u).pc).getD 0
      acc := a.ptx
      doneFunc := a.doneFunc
      uop := if a.type = .dprf then none else a.uop
      dirty := false
      done := false
      mergedReq := none
      bypass := false
      skip := false
      cacheId := cfg.addr.setCacheId cfg.org a.addr a.coreId req.cacheId }

/-- `memory_c::flush_prefetch`.
SRCLINE: memory.cc:2176-2193 -/
def flushPrefetch (cfg : MemConfig) (s : Mem) (coreId : ℕ) : Option Mem :=
  let doneList := (s.mshr coreId).filter fun r =>
    (s.req r).type = .dprf ∧ (s.req r).merge = []
  doneList.foldlM (fun s r =>
    match (s.req r).queue with
    | none => some s
    | some q => freeReq (wrapper cfg (s.fuel cfg)) coreId r (s.pop q r)) s

/-- The second search for a free entry, behind the flush; a prefetch does without.
SRCLINE: memory.cc:1815-1827 -/
def allocateAfterFlush (s : Mem) (a : ReqArgs) : Mem × Option ReqId :=
  if a.type = .dprf then (s, none)
  else
    match s.allocateNewEntry a.coreId with
    | some p => (p.1, some p.2)
    | none => (s, none)

/-- The entry for a new request: from the pool for a store that is written through, else
from the free list of the core, after a flush of its prefetches if the list is empty.  The
inner `none` is a full MSHR.
SRCLINE: memory.cc:1805-1828 -/
def newEntry (cfg : MemConfig) (s : Mem) (a : ReqArgs) : Option (Mem × Option ReqId) :=
  if cfg.writeThrough a.type a.ptx then
    let p := s.acquireEntry
    some (p.1, some p.2)
  else
    match s.allocateNewEntry a.coreId with
    | some p => some (p.1, some p.2)
    | none =>
        (flushPrefetch cfg { s with stopPrefetch := s.cycle + 500 } a.coreId).map fun s =>
          s.allocateAfterFlush a

/-- A new request joins the merge list of a request that covers it.
SRCLINE: memory.cc:1850-1867 -/
def mergeInto (s : Mem) (p r : ReqId) (priority : Counter) : Mem :=
  let s := s.modReq p fun req => { req with merge := req.merge ++ [r] }
  let s := s.modReq r fun req => { req with mergedReq := some p, state := .merged }
  s.modReq p fun req =>
    { req with priority := if req.priority < priority then priority else req.priority }

/-- The way of a new request: to the L2 cache of its core, or into the merge list of a
request that covers it.
SRCLINE: memory.cc:1847-1870 -/
def launch (cfg : MemConfig) (s : Mem) (a : ReqArgs) (matching : Option ReqId) (r : ReqId) : Mem :=
  match matching with
  | some p =>
      if cfg.writeThrough a.type a.ptx then (s.insert cfg ⟨.l2, a.coreId⟩ r).1
      else s.mergeInto p r a.type.priority
  | none => (s.insert cfg ⟨.l2, a.coreId⟩ r).1

/-- The last part of `new_mem_req`, once an entry is there.
SRCLINE: memory.cc:1842-1871 -/
def issue (cfg : MemConfig) (s : Mem) (a : ReqArgs) (matching : Option ReqId) (r : ReqId) :
    Option Mem :=
  (s.initNewReq cfg r a).map fun s => s.launch cfg a matching r

/-- The part of `new_mem_req` behind the search: room in the L2 queue, an entry, and the
request itself.
SRCLINE: memory.cc:1792-1871 -/
def issueNew (cfg : MemConfig) (s : Mem) (a : ReqArgs) (matching : Option ReqId) :
    Option (Mem × Bool) :=
  let l2 : QueueId := ⟨⟨.l2, a.coreId⟩, .inQueue⟩
  let flushed : Option Mem :=
    if s.full l2 then flushPrefetch cfg { s with stopPrefetch := s.cycle + 500 } a.coreId
    else some s
  flushed.bind fun s' =>
    if s.full l2 = true ∧ s'.full l2 = true ∧ a.type = .dprf then some (s', true)
    else
      (s'.newEntry cfg a).bind fun p =>
        match p.2 with
        | none => some (p.1, decide (a.type = .dprf))
        | some r => (p.1.issue cfg a matching r).map fun s => (s, true)

/-- `memory_c::new_mem_req`.
SRCLINE: memory.cc:1728-1872 -/
def newMemReq (cfg : MemConfig) (s : Mem) (a : ReqArgs) : Option (Mem × Bool) :=
  if s.cycle < s.stopPrefetch ∧ a.type = .dprf then some (s, true)
  else
    let matching := s.matchingReq cfg a.addr a.size
    match matching with
    | none => s.issueNew cfg a none
    | some p =>
        if cfg.writeThrough a.type a.ptx then s.issueNew cfg a matching
        else if a.type = .wb then none
        else if a.type = .dprf then some (s, true)
        else if (s.req p).type = .dprf then some (s.adjustReq cfg p a, true)
        else if (s.req p).type = .wb then none
        else s.issueNew cfg a matching

end Mem

end MacSim.Model
