import MacSim.Model.Memory

/-!
# One cycle of a cache level

`dcu_c::run_a_cycle` first moves refused requests from the retry queue to the input queue
and then serves its four queues: write-backs, fills, network output and accesses.  The four
loops have one shape, `serve`: they walk through a queue, stop after four requests, collect
those that were served in a list and only afterwards take these out of the queue.  Until
then a request that was handed on is in two queues.

A request is handed to a neighbour over a direct link or over the network.  Whether the
network accepts a packet is decided by the environment, a function of the cycle.
-/

set_option autoImplicit false

namespace MacSim.Model

namespace Mem

/-- `m_next`: the array of the level below; the L2 caches point at the last level. -/
def nextLevel : Level → Option Level
  | .l1 => some .l2
  | .l2 => some .llc
  | .l3 => some .llc
  | _ => none

/-- `m_prev`: the array of the level above. -/
def prevLevel : Level → Option Level
  | .l2 => some .l1
  | .l3 => some .l2
  | .llc => some .l3
  | _ => none

/-- The loop over a queue.  `stop` is a test before each request besides the limit of four,
`body` tells whether the request was served. -/
def serveLoop (stop : Mem → Bool) (body : ReqId → Mem → Option (Mem × Bool)) :
    List ReqId → Mem → List ReqId → Option (Mem × List ReqId)
  | [], s, doneList => some (s, doneList)
  | r :: rest, s, doneList =>
      if doneList.length = 4 ∨ stop s = true then some (s, doneList)
      else
        (body r s).bind fun p =>
          serveLoop stop body rest p.1 (if p.2 then doneList ++ [r] else doneList)

/-- One of the four loops with the removal of the served requests behind it. -/
def serve (stop : Mem → Bool) (body : ReqId → Mem → Option (Mem × Bool))
    (finish : Mem → ReqId → Option Mem) (q : QueueId) (s : Mem) : Option Mem :=
  (serveLoop stop body (s.entries q) s []).bind fun p => p.2.foldlM finish p.1

/-- What `process_in_queue` and `process_fill_queue` do with a served request.
SRCLINE: memory.cc:888-906, 1316-1333 -/
def retireServedOr (overflow : Mem → Option Mem) (cfg : MemConfig) (q : QueueId) (s : Mem)
    (r : ReqId) : Option Mem :=
  let s := s.pop q r
  if (s.req r).done then
    if cfg.writeThrough (s.req r).type (s.req r).acc then some (s.freeWriteReq r)
    else freeReq (wrapperOr overflow cfg (s.fuel cfg)) (s.req r).coreId r s
  else some s

/-- The same with the assertion on the write-back queue.
SRCLINE: memory.cc:888-906, 1316-1333 -/
def retireServed (cfg : MemConfig) (q : QueueId) (s : Mem) (r : ReqId) : Option Mem :=
  retireServedOr assertionFails cfg q s r

/-- Note in the log that the line of a request is dirty in the cache of a level. -/
def noteDirtied (s : Mem) (d : DcuId) (r : ReqId) : Mem :=
  if s.lineDirty d (s.req r).addr then s.record (.dirtied r d) else s

/-- Mark a request done; the log keeps the write-backs. -/
def markDone (s : Mem) (r : ReqId) : Mem :=
  let s := if (s.req r).type = .wb then s.record (.wbDone r) else s
  s.modReq r fun req => { req with done := true }

/-- Hand a request to the output queue. -/
def toOutQueue (cfg : MemConfig) (s : Mem) (d : DcuId) (r : ReqId) (f : MemReq → MemReq) :
    Mem × Bool :=
  let p := s.push cfg ⟨d, .outQueue⟩ r
  if p.2 then (p.1.modReq r f, true) else (s, false)

/-- Hand a request to the fill queue of the level above; `none` is the null `m_prev` of the
L1 caches. -/
def fillPrev (cfg : MemConfig) (s : Mem) (d : DcuId) (id : ℕ) (r : ReqId) :
    Option (Mem × Bool) :=
  (prevLevel d.level).map fun l => s.fill cfg ⟨l, id⟩ r

/-- Whether the level above is reached over a direct link. -/
def directUp (cfg : MemConfig) (s : Mem) (d : DcuId) (r : ReqId) : Bool :=
  let fl := cfg.flags d
  (fl.coupledUp && decide (fl.prevId = some ((s.req r).cacheId d.level.upper))) || !fl.hasRouter

/-- Whether the level below is reached over a direct link. -/
def directDown (cfg : MemConfig) (s : Mem) (d : DcuId) (r : ReqId) : Bool :=
  let fl := cfg.flags d
  (fl.coupledDown && decide (fl.nextId = some ((s.req r).cacheId d.level.lower))) ||
    !fl.hasRouter

/-! ## The input queue -/

/-- The line of a hit; a store or a write-back makes it dirty.
SRCLINE: memory.cc:779-790 -/
def markHit (d : DcuId) (r : ReqId) (cache : Cache DcacheData) (l : Slot) (s : Mem) : Mem :=
  s.setCache d
    (if (s.req r).type = .dstore ∨ (s.req r).type = .wb then
      cache.modifyData l fun line => { line with dirty := true }
    else cache)

/-- A hit in `process_in_queue`, behind the cache access.
SRCLINE: memory.cc:765-822 -/
def inHit (cfg : MemConfig) (d : DcuId) (r : ReqId) (s : Mem) : Option (Mem × Bool) :=
  if (s.req r).type = .wb then some ((s.noteDirtied d r).markDone r, true)
  else if (cfg.flags d).done then
    (callback (wrapper cfg (s.fuel cfg)) r s).map fun p =>
      if p.2 then (p.1.markDone r, true) else (p.1, false)
  else if directUp cfg s d r then
    if d.level = .llc then fillPrev cfg s d ((s.req r).cacheId d.level.upper) r else none
  else
    some (s.toOutQueue cfg d r fun req =>
      { req with state := .outFill, rdyCycle := (s.dcu d).cycle + 1 })

/-- A miss in `process_in_queue`, or a disabled level.  The log notes a request that the
level below refuses.
SRCLINE: memory.cc:825-882 -/
def inMiss (cfg : MemConfig) (d : DcuId) (r : ReqId) (s : Mem) : Option (Mem × Bool) :=
  if directDown cfg s d r then
    if d.level = .llc then none
    else
      (nextLevel d.level).map fun l =>
        let e : DcuId := ⟨l, (s.req r).cacheId d.level.lower⟩
        let p := s.insert cfg e r
        if p.2 then p else (p.1.record (.refused e r), false)
  else
    some (s.toOutQueue cfg d r fun req =>
      { req with state := .outqueueNew, rdyCycle := (s.dcu d).cycle + 1 })

/-- The body of `process_in_queue`.
SRCLINE: memory.cc:720-884 -/
def inBody (cfg : MemConfig) (d : DcuId) (r : ReqId) (s : Mem) : Option (Mem × Bool) :=
  if (s.dcu d).cycle < (s.req r).rdyCycle then some (s, false)
  else if (d.level = .llc ∧ (s.req r).bypass = true) ∨ (cfg.flags d).disable = true then
    inMiss cfg d r s
  else
    (s.dcu d).cache.bind fun cache =>
      match cache.accessCache s.simCycle (s.req r).addr (decide ((s.req r).type ≠ .wb)) with
      | (some l, cache) => inHit cfg d r (markHit d r cache l s)
      | (none, _) => inMiss cfg d r s

/-- `dcu_c::process_in_queue`.
SRCLINE: memory.cc:714-909 -/
def processInQueue (cfg : MemConfig) (d : DcuId) (s : Mem) : Option Mem :=
  serve (fun _ => false) (inBody cfg d) (retireServed cfg ⟨d, .inQueue⟩) ⟨d, .inQueue⟩ s

/-! ## The fill queue -/

/-- The cache access of a request that has just come to the fill queue; `false` is a busy
write port.
SRCLINE: memory.cc:1110-1185 -/
def fillAccessOr (overflow : Mem → Option Mem) (cfg : MemConfig) (d : DcuId) (r : ReqId)
    (s : Mem) : Option (Mem × Bool) :=
  if (cfg.flags d).disable then some (s, true)
  else
    (s.dcu d).cache.bind fun cache =>
      match cache.accessCache s.simCycle (s.req r).addr false with
      | (none, cache) =>
          (s.getWritePort d (cache.param.getBankNum (s.req r).addr) (s.dcu d).cycle).bind
            fun p =>
              if p.2 then (p.1.insertLineOr overflow cfg d cache r).map fun s => (s, true)
              else some (p.1, false)
      | (some l, cache) =>
          some (s.setCache d (cache.modifyData l fun line =>
            { line with dirty := line.dirty || (s.req r).dirty }), true)

/-- The cache access, with the assertion on the write-back queue.
SRCLINE: memory.cc:1110-1185 -/
def fillAccess (cfg : MemConfig) (d : DcuId) (r : ReqId) (s : Mem) : Option (Mem × Bool) :=
  fillAccessOr assertionFails cfg d r s

/-- A request that could not be handed on waits in the fill queue. -/
def waitFill (r : ReqId) (p : Mem × Bool) : Mem × Bool :=
  if p.2 then p else (p.1.modReq r fun req => { req with state := .fillWaitFill }, false)

/-- The way of a filled request to the level above.
SRCLINE: memory.cc:1204-1257, 1279-1304 -/
def fillUp (cfg : MemConfig) (d : DcuId) (r : ReqId) (s : Mem) : Option (Mem × Bool) :=
  if directUp cfg s d r then
    (fillPrev cfg s d ((s.req r).cacheId d.level.upper) r).map (waitFill r)
  else
    some (waitFill r (s.toOutQueue cfg d r fun req => { req with state := .outFill }))

/-- The same in a disabled level, which has no exception for a missing router.
SRCLINE: memory.cc:1205-1230 -/
def fillUpDisabled (cfg : MemConfig) (d : DcuId) (r : ReqId) (s : Mem) : Option (Mem × Bool) :=
  let fl := cfg.flags d
  let upper := (s.req r).cacheId d.level.upper
  if fl.coupledUp && decide (fl.prevId = some upper) then
    (fillPrev cfg s d upper r).map (waitFill r)
  else
    some (waitFill r (s.toOutQueue cfg d r fun req => { req with state := .outFill }))

/-- The state `MEM_FILL_NEW` of `process_fill_queue`, behind the cache access.
SRCLINE: memory.cc:1187-1259 -/
def fillNewOr (overflow : Mem → Option Mem) (cfg : MemConfig) (d : DcuId) (r : ReqId)
    (s : Mem) : Option (Mem × Bool) :=
  let s :=
    if (s.req r).type = .wb ∧ (cfg.flags d).disable = false then s.noteDirtied d r else s
  if (cfg.flags d).done then
    if d.level = .llc then none
    else
      (callback (wrapperOr overflow cfg (s.fuel cfg)) r s).map fun p =>
        if p.2 then (p.1.markDone r, true)
        else (p.1.modReq r fun req => { req with state := .fillWaitDone }, false)
  else if (s.req r).type = .wb then some (s.markDone r, true)
  else if (cfg.flags d).disable then fillUpDisabled cfg d r s
  else fillUp cfg d r s

/-- The state `MEM_FILL_NEW`, with the assertion on the write-back queue.
SRCLINE: memory.cc:1187-1259 -/
def fillNew (cfg : MemConfig) (d : DcuId) (r : ReqId) (s : Mem) : Option (Mem × Bool) :=
  fillNewOr assertionFails cfg d r s

/-- The body of `process_fill_queue`.
SRCLINE: memory.cc:1071-1313 -/
def fillBodyOr (overflow : Mem → Option Mem) (cfg : MemConfig) (d : DcuId) (r : ReqId)
    (s : Mem) : Option (Mem × Bool) :=
  if d.level = .l1 ∧ cfg.writeThrough (s.req r).type (s.req r).acc = true then
    if (cfg.flags d).done ∧ (s.req r).doneFunc.isSome then
      (callback (wrapperOr overflow cfg (s.fuel cfg)) r s).bind fun p =>
        if p.2 then some (p.1.markDone r, true) else none
    else none
  else if (s.dcu d).cycle < (s.req r).rdyCycle then some (s, false)
  else
    match (s.req r).state with
    | .fillNew =>
        (fillAccessOr overflow cfg d r s).bind fun p =>
          if p.2 then fillNewOr overflow cfg d r p.1 else some (p.1, false)
    | .fillWaitDone =>
        (callback (wrapperOr overflow cfg (s.fuel cfg)) r s).map fun p =>
          if p.2 then (p.1.markDone r, true) else (p.1, false)
    | .fillWaitFill => fillUp cfg d r s
    | _ => none

/-- The body of `process_fill_queue`, with the assertion on the write-back queue.
SRCLINE: memory.cc:1071-1313 -/
def fillBody (cfg : MemConfig) (d : DcuId) (r : ReqId) (s : Mem) : Option (Mem × Bool) :=
  fillBodyOr assertionFails cfg d r s

/-- `dcu_c::process_fill_queue`; a full write-back queue ends the loop.
SRCLINE: memory.cc:1059-1336 -/
def processFillQueueOr (overflow : Mem → Option Mem) (cfg : MemConfig) (d : DcuId) (s : Mem) :
    Option Mem :=
  serve (fun s => s.full ⟨d, .wbQueue⟩) (fillBodyOr overflow cfg d)
    (retireServedOr overflow cfg ⟨d, .fillQueue⟩) ⟨d, .fillQueue⟩ s

/-- `dcu_c::process_fill_queue`, with the assertion on the write-back queue.
SRCLINE: memory.cc:1059-1336 -/
def processFillQueue (cfg : MemConfig) (d : DcuId) (s : Mem) : Option Mem :=
  processFillQueueOr assertionFails cfg d s

/-! ## The write-back and output queues -/

/-- The body of `process_wb_queue`.
SRCLINE: memory.cc:1346-1386 -/
def wbBody (cfg : MemConfig) (d : DcuId) (r : ReqId) (s : Mem) : Option (Mem × Bool) :=
  let fl := cfg.flags d
  if (s.dcu d).cycle < (s.req r).rdyCycle then some (s, false)
  else
    match fl.nextId, nextLevel d.level with
    | some id, some l =>
        if fl.coupledDown ∧ (s.req r).cacheId d.level.lower = id then
          some (s.fill cfg ⟨l, id⟩ r)
        else some (s.toOutQueue cfg d r fun req => { req with state := .outWb })
    | _, _ => some (s.toOutQueue cfg d r fun req => { req with state := .outWb })

/-- `dcu_c::process_wb_queue`.
SRCLINE: memory.cc:1341-1393 -/
def processWbQueue (cfg : MemConfig) (d : DcuId) (s : Mem) : Option Mem :=
  serve (fun _ => false) (wbBody cfg d) (fun s r => some (s.pop ⟨d, .wbQueue⟩ r))
    ⟨d, .wbQueue⟩ s

/-- `dcu_c::send_packet`; `accept` is the answer of the network.
SRCLINE: memory.cc:950-975 -/
def sendPacket (accept : ReqId → Bool) (dst : DcuId) (r : ReqId) (msgType : NocType) (s : Mem) :
    Mem × Bool :=
  let s := s.modReq r fun req => { req with msgType := msgType }
  if accept r then
    ({ s.modReq r fun req => { req with state := .inNoc } with net := s.net ++ [(dst, r)] }, true)
  else (s, false)

/-- The body of `process_out_queue`; a level without a router and a request in another state
are failed assertions.
SRCLINE: memory.cc:985-1040 -/
def outBody (cfg : MemConfig) (accept : ReqId → Bool) (d : DcuId) (r : ReqId) (s : Mem) :
    Option (Mem × Bool) :=
  let req := s.req r
  let withData := req.acc && cfg.knobs.computeCapability2 && req.withData
  let lower : DcuId := ⟨d.level.lower, req.cacheId d.level.lower⟩
  let upper : DcuId := ⟨d.level.upper, req.cacheId d.level.upper⟩
  if (s.dcu d).cycle < req.rdyCycle then some (s, false)
  else if (cfg.flags d).hasRouter then
    match req.state with
    | .outqueueNew =>
        some (s.sendPacket accept lower r
          (if withData && decide (d.level ≠ .llc) then .newWithData else .new))
    | .outFill =>
        some (s.sendPacket accept upper r
          (if withData && decide (d.level = .llc) then .ack else .fill))
    | .outWb => some (s.sendPacket accept lower r .fill)
    | _ => none
  else none

/-- `dcu_c::process_out_queue`.
SRCLINE: memory.cc:980-1052 -/
def processOutQueue (cfg : MemConfig) (accept : ReqId → Bool) (d : DcuId) (s : Mem) :
    Option Mem :=
  serve (fun _ => false) (outBody cfg accept d)
    (fun s r => some ((s.modReq r fun req => { req with queue := none }).pop ⟨d, .outQueue⟩ r))
    ⟨d, .outQueue⟩ s

/-! ## The network side and the whole cycle -/

/-- One round of `receive_packet`: the front of the receive buffer is offered to the fill or
input queue and leaves the buffer when it is taken.
SRCLINE: memory.cc:921-945 -/
def receiveRound (cfg : MemConfig) (d : DcuId) (s : Mem) : Mem :=
  match s.rx d with
  | [] => s
  | r :: rest =>
      let s := s.modReq r fun req => { req with state := .nocDone }
      let popRx (s : Mem) : Mem := { s with rx := Function.update s.rx d rest }
      match (s.req r).msgType with
      | .fill | .ack =>
          let p := s.fill cfg d r
          if p.2 then popRx p.1 else p.1
      | .new | .newWithData =>
          let p := s.insert cfg d r
          if p.2 then popRx p.1 else p.1.record (.refused d r)

/-- `dcu_c::receive_packet`.
SRCLINE: memory.cc:912-947 -/
def receivePacket (cfg : MemConfig) (d : DcuId) (s : Mem) : Mem :=
  if (cfg.flags d).hasRouter then
    if cfg.knobs.simpleNoc then receiveRound cfg d (receiveRound cfg d s)
    else receiveRound cfg d s
  else s

/-- The retry loop of `run_a_cycle`.
SRCLINE: memory.cc:688-696 -/
def retryLoop (cfg : MemConfig) (d : DcuId) : List ReqId → Mem → List ReqId → Mem
  | [], s, kept => s.modDcu d fun c => { c with retryQueue := kept }
  | r :: rest, s, kept =>
      let p := s.push cfg ⟨d, .inQueue⟩ r
      if p.2 then retryLoop cfg d rest p.1 kept else retryLoop cfg d rest s (kept ++ [r])

/-- `++m_cycle` of a `dcu_c`. -/
def tickDcu (d : DcuId) (s : Mem) : Mem :=
  s.modDcu d fun c => { c with cycle := c.cycle + 1 }

/-- `dcu_c::run_a_cycle`, with the receive step of the internal network.
SRCLINE: memory.cc:682-706 -/
def runACycle (cfg : MemConfig) (accept : ReqId → Bool) (pllLock : Bool) (d : DcuId) (s : Mem) :
    Option Mem :=
  if pllLock then some (tickDcu d s)
  else
    (processWbQueue cfg d (retryLoop cfg d (s.dcu d).retryQueue s [])).bind fun s =>
      (processFillQueue cfg d s).bind fun s =>
        (processOutQueue cfg accept d s).bind fun s =>
          (processInQueue cfg d s).map fun s => tickDcu d (receivePacket cfg d s)

/-! ## The access of a core -/

/-- The request type of a miss; `none` is a failed assertion.
SRCLINE: memory.cc:541-563 -/
def missType : MemType → Option MemReqType
  | .ld | .ldLm | .ldCm | .ldTm => some .dfetch
  | .st | .stLm | .stGm => some .dstore
  | .swprefNta | .swprefT0 | .swprefT1 | .swprefT2 | .pf => some .dprf
  | _ => none

/-- The port test of `access`; `false` is a busy port. -/
def accessPort (cfg : MemConfig) (d : DcuId) (u : ℕ) (s : Mem) : Option (Mem × Bool) :=
  let bank := (bank (s.uop u).paddr (cfg.param d).banks 256).toNat
  if cfg.knobs.dcacheInfinitePort || (cfg.flags d).disable then some (s, true)
  else if (s.uop u).memType.isStore then s.getWritePort d bank ((s.dcu d).cycle - 1)
  else s.getReadPort d bank ((s.dcu d).cycle - 1)

/-- The request of an access, for the line or for the bytes of the uop. -/
def accessArgs (cfg : MemConfig) (d : DcuId) (u : ℕ) (type : MemReqType) (withData : Bool)
    (doneFunc : DoneFunc) (s : Mem) : ReqArgs :=
  let uop := s.uop u
  let bytes := (cfg.param d).accSim && cfg.knobs.byteLevelAccess
  { type := type
    addr := if bytes then uop.paddr else uop.paddr &&& -BitVec.ofNat 64 (cfg.param d).lineSize
    size := if bytes then uop.memSize else (cfg.param d).lineSize
    withData := withData
    delay := cfg.latency d
    uop := some u
    doneFunc := some doneFunc
    coreId := d.id
    threadId := uop.threadId
    ptx := (cfg.param d).accSim }

/-- Send the request of an access; a refused uop is told so. -/
def accessRequest (cfg : MemConfig) (u : ℕ) (a : ReqArgs) (s : Mem) : Option Mem :=
  (s.newMemReq cfg a).map fun p =>
    if p.2 then p.1
    else p.1.modUop u fun x => { x with state := .dcacheMemAccessDenied }

/-- A hit of `access`: a store marks the line, and on a GPU of compute capability 2.0 a
global store is written through and the line dropped.
SRCLINE: memory.cc:463-512 -/
def accessHit (cfg : MemConfig) (d : DcuId) (u : ℕ) (hit : Option (Slot × Cache DcacheData))
    (s : Mem) : Option Mem :=
  let type := (s.uop u).memType
  let s :=
    match hit with
    | none => s
    | some (l, cache) =>
        s.setCache d (if type.isStore then
            cache.modifyData l fun line => { line with dirty := true }
          else cache)
  if (cfg.param d).accSim = true ∧ cfg.knobs.computeCapability2 = true ∧ type = .st then
    (s.dcu d).cache.bind fun cache =>
      let s := s.setCache d (cache.invalidateCacheLine (s.uop u).paddr)
      accessRequest cfg u (accessArgs cfg d u .dstore true .dcacheWriteAck s) s
  else some s

/-- A miss of `access`.
SRCLINE: memory.cc:517-633 -/
def accessMiss (cfg : MemConfig) (d : DcuId) (u : ℕ) (s : Mem) : Option Mem :=
  let type := (s.uop u).memType
  (missType type).bind fun reqType =>
    let s := s.modUop u fun x =>
      { x with
        bypassLlc := x.bypassLlc || decide ((d.id : ℤ) = cfg.knobs.heteroGpuCoreDisable)
        skipLlc := x.skipLlc || decide ((d.id : ℤ) = cfg.knobs.heteroGpuCoreDisable + 1) }
    let ack := (cfg.param d).accSim && cfg.knobs.computeCapability2 &&
      decide (type = .st ∨ type = .stLm)
    accessRequest cfg u
      (accessArgs cfg d u reqType (decide (type = .stGm ∨ type = .stLm))
        (if ack then .dcacheWriteAck else .dcacheFillLine) s) s

/-- `memory_c::access`, the access of a translated uop to the L1 cache of its core.
SRCLINE: memory.cc:407-634, 2017-2019 -/
def access (cfg : MemConfig) (u : ℕ) (s : Mem) : Option Mem :=
  let d : DcuId := ⟨.l1, (s.uop u).coreId⟩
  let s := s.modUop u fun x => { x with state := .dcacheBegin }
  (accessPort cfg d u s).bind fun p =>
    let s := p.1
    if p.2 = false then some (s.modUop u fun x => { x with state := .dcachePortUnavailable })
    else if cfg.knobs.perfectDcache then accessHit cfg d u none s
    else if (cfg.flags d).disable then accessMiss cfg d u s
    else
      (s.dcu d).cache.bind fun cache =>
        match cache.accessCache s.simCycle (s.uop u).paddr true with
        | (some l, cache) => accessHit cfg d u (some (l, cache)) s
        | (none, _) => accessMiss cfg d u s

end Mem

end MacSim.Model
