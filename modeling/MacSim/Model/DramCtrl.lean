import MacSim.Computation.Table
import MacSim.Model.DramAddress
import MacSim.Model.MemReq

/-!
# The DRAM controllers

`dram_ctrl_c` with its two scheduling policies, and `dram_simple_ctrl_c`.  A controller owns,
for every bank, a fixed stock of `drb_entry_s` objects that move between a free list, the
request buffer and the slot of the entry in service.  `DrbId` is the pointer to such an object:
the bank that it was made for and its number there.

Requests are numbered in the order in which the network delivers them.  The memory system
keeps a pointer to a request and may promote a prefetch while the controller has it, so the
requests are in a table.  What the network does is an oracle: `arrive` puts a request into the
receive queue of the controller's router and a send is answered by a function of the request.

Clock values and counters are unbounded numbers.  The source marks a time that is not set by `ULLONG_MAX`,
which is `none` here; the row id of a closed bank keeps that value.

The fields under `records` are not in the source.  They hold what the controller did so far.
-/

set_option autoImplicit false

namespace MacSim.Model

open MacSim.Computation

/-- `DRAM_STATE`.
SRCLINE: dram_ctrl.h:57-63 -/
inductive DramState where
  | init | cmd | cmdWait | data | dataWait
  deriving DecidableEq, Repr

/-- A `drb_entry_s *`: the entry `index` of those made for `bank`. -/
structure DrbId where
  bank : ℕ
  index : ℕ
  deriving DecidableEq, Repr

/-- What the controllers use of a `mem_req_s`. -/
structure DramReq where
  addr : Addr
  type : MemReqType
  size : ℕ
  acc : Bool
  coreId : ℕ
  llcId : ℕ
  state : MemReqState
  rdyCycle : ℕ
  msgType : NocType
  deriving DecidableEq, Repr

/-- `drb_entry_s`, without the fields that nothing reads. -/
structure DrbEntry where
  state : DramState
  addr : Addr
  bid : BitVec 64
  rid : BitVec 64
  cid : BitVec 64
  read : Bool
  req : Option ℕ
  size : ℕ
  timestamp : ℕ
  scheduled : ℕ
  deriving DecidableEq, Repr

/-- `drb_entry_s::reset`.
SRCLINE: dram_ctrl.cc:104-121 -/
def DrbEntry.reset : DrbEntry :=
  { state := .init, addr := 0, bid := BitVec.allOnes 64, rid := BitVec.allOnes 64
    cid := BitVec.allOnes 64, read := false, req := none, size := 0, timestamp := 0
    scheduled := 0 }

/-- `drb_entry_s::set` for the request `r` with contents `req`; the state, the timestamp and
the scheduling time stay.
SRCLINE: dram_ctrl.cc:124-150 -/
def DrbEntry.set (entry : DrbEntry) (r : ℕ) (req : DramReq) (place : DramAddr) : DrbEntry :=
  { entry with
    addr := req.addr, bid := place.bid, rid := place.rid, cid := place.cid
    req := some r, size := req.size, read := req.type ≠ .wb }

/-- The scheduling policies: the base class, and `dc_frfcfs_c`. -/
inductive DramPolicy where
  | fcfs | frfcfs
  deriving DecidableEq, Repr

/-- The knobs of a controller.  There is a bank to put a request into, and knobs are of type
`int`. -/
structure DramKnobs where
  map : AddrKnobs
  policy : DramPolicy
  numChannel : ℕ
  busWidth : ℕ
  bufferSize : ℕ
  precharge : ℕ
  activate : ℕ
  column : ℕ
  additionalLatency : ℕ
  meeBypass : Bool
  mergeRequests : Bool
  bankXorIndex : Bool
  enableNocVcPartition : Bool
  banks_pos : 0 < map.dramNumBanks
  banks_lt : map.dramNumBanks < 2 ^ 31

namespace DramKnobs

/-- `m_num_bank`. -/
def numBank (k : DramKnobs) : ℕ := k.map.dramNumBanks

/-- `m_num_bank_per_channel`. -/
def numBankPerChannel (k : DramKnobs) : ℕ := k.numBank / k.numChannel

/-- The banks of channel `ii`, in loop order. -/
def channelBanks (k : DramKnobs) (ii : ℕ) : List ℕ :=
  (List.range k.numBankPerChannel).map (ii * k.numBankPerChannel + ·)

/-- Whether `m_tmp_output_buffer` exists.
SRCLINE: dram_ctrl.cc:236-240 -/
def delayed (k : DramKnobs) : Bool := k.additionalLatency ≠ 0 || !k.meeBypass

/-- The entries made for bank `b`. -/
def slots (k : DramKnobs) (b : ℕ) : List DrbId := (List.range k.bufferSize).map (DrbId.mk b)

end DramKnobs

/-- What happens at a bank: an entry is selected, a command is issued to it, its data goes
over the bus, it is completed. -/
inductive BankEvent where
  | select | precharge | activate | column | data | complete
  deriving DecidableEq, Repr

/-- A request left its bank with data: the cycle at which the transfer finished and the cycle
at which the controller noticed. -/
structure Completion where
  req : ℕ
  finish : ℕ
  cycle : ℕ
  deriving DecidableEq, Repr

/-- A message that the network took. -/
structure DramSent where
  req : ℕ
  msgType : NocType
  llcId : ℕ
  cycle : ℕ
  deriving DecidableEq, Repr

/-- `dram_ctrl_c` with the requests that it can reach. -/
structure DramCtrl where
  reqs : ℕ → DramReq
  /-- the receive queue of the router of this controller -/
  incoming : List ℕ
  entry : DrbId → DrbEntry
  buffer : ℕ → List DrbId
  bufferFreeList : ℕ → List DrbId
  currentList : ℕ → Option DrbId
  currentRid : ℕ → BitVec 64
  bankReady : ℕ → Option ℕ
  dataReady : ℕ → Option ℕ
  dataAvail : ℕ → Option ℕ
  bankTimestamp : ℕ → ℕ
  byteAvail : ℕ → ℕ
  dbusReady : ℕ → ℕ
  numCompletedInLastCycle : ℤ
  starvationCycle : ℤ
  totalReq : ℤ
  outputBuffer : List ℕ
  tmpOutputBuffer : List ℕ
  cycle : ℕ
  /-- records: the number of requests delivered -/
  arrived : ℕ
  /-- records: the requests whose kind the memory system changed -/
  reclassified : List ℕ
  /-- records: the requests that `insert_new_req` took -/
  accepted : List ℕ
  /-- records: the row ids with which it took them -/
  rows : List (BitVec 64)
  /-- records: the requests that `flush_prefetch` freed, with their type -/
  flushed : List (ℕ × MemReqType)
  /-- records: the requests that were freed on completion -/
  retired : List ℕ
  completed : List Completion
  sent : List DramSent
  /-- records: the events of a bank with their cycles, in order -/
  trace : ℕ → List (BankEvent × ℕ)

namespace DramCtrl

/-- The state after construction; the two counters of `progress_check` are not initialised.
SRCLINE: dram_ctrl.cc:156-242 -/
def new (k : DramKnobs) (completed starvation : ℤ) (reqs : ℕ → DramReq) : DramCtrl :=
  { reqs := reqs, incoming := []
    entry := fun _ => DrbEntry.reset
    buffer := fun _ => []
    bufferFreeList := k.slots
    currentList := fun _ => none
    currentRid := fun _ => BitVec.allOnes 64
    bankReady := fun _ => none
    dataReady := fun _ => none
    dataAvail := fun _ => none
    bankTimestamp := fun _ => 0
    byteAvail := fun _ => k.busWidth
    dbusReady := fun _ => 0
    numCompletedInLastCycle := completed
    starvationCycle := starvation
    totalReq := 0
    outputBuffer := [], tmpOutputBuffer := []
    cycle := 0
    arrived := 0, reclassified := [], accepted := [], rows := [], flushed := [], retired := []
    completed := [], sent := [], trace := fun _ => [] }

/-- Write fields of a request. -/
def modifyReq (s : DramCtrl) (r : ℕ) (f : DramReq → DramReq) : DramCtrl :=
  { s with reqs := Function.update s.reqs r (f (s.reqs r)) }

/-- Write fields of an entry. -/
def modifyEntry (s : DramCtrl) (e : DrbId) (f : DrbEntry → DrbEntry) : DramCtrl :=
  { s with entry := Function.update s.entry e (f (s.entry e)) }

/-- Record an event of a bank. -/
def note (s : DramCtrl) (b : ℕ) (ev : BankEvent) : DramCtrl :=
  { s with trace := Function.update s.trace b (s.trace b ++ [(ev, s.cycle)]) }

/-- A time that is set and not later than now. -/
def reached (s : DramCtrl) (time : Option ℕ) : Bool := time.any (· ≤ s.cycle)

/-- `m_req->m_type` of an entry. -/
def entryType (s : DramCtrl) (e : DrbId) : Option MemReqType :=
  (s.entry e).req.map fun r => (s.reqs r).type

/-! ## Requests come in -/

/-- One round of the second loop of `flush_prefetch`.
SRCLINE: dram_ctrl.cc:308-313 -/
def flushEntry (b : ℕ) (s : DramCtrl) (e : DrbId) : Option DramCtrl :=
  (s.entry e).req.map fun r =>
    { s with
      flushed := s.flushed ++ [(r, (s.reqs r).type)]
      bufferFreeList := Function.update s.bufferFreeList b (s.bufferFreeList b ++ [e])
      buffer := Function.update s.buffer b ((s.buffer b).filter (· ≠ e))
      totalReq := s.totalReq - 1 }

/-- `dram_ctrl_c::flush_prefetch`; `none` is a null pointer.
SRCLINE: dram_ctrl.cc:300-314 -/
def flushPrefetch (s : DramCtrl) (b : ℕ) : Option DramCtrl :=
  ((s.buffer b).filter fun e => s.entryType e = some .dprf).foldlM (flushEntry b) s

/-- `dram_ctrl_c::insert_req_in_drb` with the entry `e` at the front of the free list.
SRCLINE: dram_ctrl.cc:317-331 -/
def insertReqInDrb (s : DramCtrl) (r : ℕ) (place : DramAddr) (b : ℕ) (e : DrbId)
    (rest : List DrbId) : DramCtrl :=
  let s := { s with bufferFreeList := Function.update s.bufferFreeList b rest }
  let s := s.modifyEntry e fun entry =>
    { entry.set r (s.reqs r) place with timestamp := s.cycle }
  { s with buffer := Function.update s.buffer b (s.buffer b ++ [e]) }

/-- Prefetches are flushed when no entry is free.
SRCLINE: dram_ctrl.cc:273-275 -/
def makeRoom (s : DramCtrl) (b : ℕ) : Option DramCtrl :=
  if s.bufferFreeList b = [] then s.flushPrefetch b else some s

/-- `dram_ctrl_c::insert_new_req`.
SRCLINE: dram_ctrl.cc:265-298 -/
def insertNewReq (k : DramKnobs) (s : DramCtrl) (r : ℕ) : Option (DramCtrl × Bool) := do
  let place := k.map.parseAddr k.bankXorIndex (s.reqs r).addr
  let b := place.bid.toNat
  let s ← s.makeRoom b
  match s.bufferFreeList b with
  | [] => return (s, false)
  | e :: rest =>
      let s := s.insertReqInDrb r place b e rest
      let s := { s with
        totalReq := s.totalReq + 1
        accepted := s.accepted ++ [r]
        rows := s.rows ++ [place.rid] }
      return (s.modifyReq r fun req => { req with state := .dramStart }, true)

/-- `dram_ctrl_c::receive`.
SRCLINE: dram_ctrl.cc:616-628 -/
def receive (k : DramKnobs) (s : DramCtrl) : Option DramCtrl :=
  match s.incoming with
  | [] => some s
  | r :: rest => do
      let (s, inserted) ← s.insertNewReq k r
      return if inserted then { s with incoming := rest } else s

/-! ## Banks -/

/-- A finished request leaves the bank `b`: a write-back is freed, any other request goes to
an output buffer.
SRCLINE: dram_ctrl.cc:449-477, 501-530 -/
def retire (k : DramKnobs) (s : DramCtrl) (finish r : ℕ) : DramCtrl :=
  if (s.reqs r).type = .wb then { s with retired := s.retired ++ [r] }
  else
    let s := { s with completed := s.completed ++ [Completion.mk r finish s.cycle] }
    let s :=
      if k.delayed then
        let s := s.modifyReq r fun req =>
          { req with rdyCycle := s.cycle + k.additionalLatency }
        { s with tmpOutputBuffer := s.tmpOutputBuffer ++ [r] }
      else { s with outputBuffer := s.outputBuffer ++ [r] }
    s.modifyReq r fun req => { req with state := .dramDone }

/-- One round of the first merge loop: the request of the entry `e` is served too.
SRCLINE: dram_ctrl.cc:445-484 -/
def mergeEntry (k : DramKnobs) (finish : ℕ) (s : DramCtrl) (e : DrbId) : Option DramCtrl :=
  (s.entry e).req.map fun r =>
    let s := s.retire k finish r
    { s with numCompletedInLastCycle := s.cycle }

/-- One round of the second merge loop: the entry `e` goes to the free list.
SRCLINE: dram_ctrl.cc:488-494 -/
def releaseEntry (b : ℕ) (s : DramCtrl) (e : DrbId) : DramCtrl :=
  let s := s.modifyEntry e fun _ => DrbEntry.reset
  { s with
    bufferFreeList := Function.update s.bufferFreeList b (s.bufferFreeList b ++ [e])
    buffer := Function.update s.buffer b ((s.buffer b).filter (· ≠ e))
    totalReq := s.totalReq - 1 }

/-- The entries of bank `b` for the address of `e`. -/
def sameAddr (s : DramCtrl) (b : ℕ) (e : DrbId) : List DrbId :=
  (s.buffer b).filter fun i => (s.entry i).addr = (s.entry e).addr

/-- The merging of requests for the address of the entry `e` in service.
SRCLINE: dram_ctrl.cc:443-497 -/
def mergeRequests (k : DramKnobs) (s : DramCtrl) (b : ℕ) (e : DrbId) (finish : ℕ) :
    Option DramCtrl :=
  if k.mergeRequests then do
    let tempList := s.sameAddr b e
    let s ← tempList.foldlM (mergeEntry k finish) s
    return tempList.foldl (releaseEntry b) s
  else some s

/-- The end of service of the entry `e` of bank `b`.
SRCLINE: dram_ctrl.cc:503-537 -/
def completeEntry (k : DramKnobs) (s : DramCtrl) (b : ℕ) (e : DrbId) (finish : ℕ) :
    Option DramCtrl :=
  (s.entry e).req.map fun r =>
    let s := s.retire k finish r
    let s := s.modifyEntry e fun _ => DrbEntry.reset
    let s := s.note b .complete
    { s with
      bufferFreeList := Function.update s.bufferFreeList b (s.bufferFreeList b ++ [e])
      currentList := Function.update s.currentList b none
      dataReady := Function.update s.dataReady b none
      numCompletedInLastCycle := s.numCompletedInLastCycle + 1
      totalReq := s.totalReq - 1 }

/-- One bank of `bank_schedule_complete`; `none` is a failed assertion or a null pointer.
SRCLINE: dram_ctrl.cc:436-538 -/
def completeBank (k : DramKnobs) (s : DramCtrl) (b : ℕ) : Option DramCtrl :=
  match s.currentList b, s.dataReady b with
  | some e, some finish =>
      if finish ≤ s.cycle then
        if (s.entry e).state = .dataWait then do
          let s ← s.mergeRequests k b e finish
          s.completeEntry k b e finish
        else none
      else some s
  | _, _ => some s

/-- `dram_ctrl_c::bank_schedule_complete`.
SRCLINE: dram_ctrl.cc:434-539 -/
def bankScheduleComplete (k : DramKnobs) (s : DramCtrl) : Option DramCtrl :=
  (List.range k.numBank).foldlM (completeBank k) { s with numCompletedInLastCycle := 0 }

/-- An `int` made of a 64-bit row id and compared with a 64-bit row id. -/
def asInt (rid : BitVec 64) : BitVec 64 := (rid.setWidth 32).signExtend 64

/-- `dc_frfcfs_c::sort_func::operator()`.
SRCLINE: dram_ctrl.cc:862-880 -/
def sortFunc (s : DramCtrl) (a b : DrbId) : Bool :=
  let currentRid := asInt (s.currentRid (s.entry a).bid.toNat)
  if s.entryType a ≠ some .dprf ∧ s.entryType b = some .dprf then true
  else if s.entryType a = some .dprf ∧ s.entryType b ≠ some .dprf then false
  else if (s.entry a).rid = currentRid ∧ (s.entry b).rid ≠ currentRid then true
  else if (s.entry a).rid ≠ currentRid ∧ (s.entry b).rid = currentRid then false
  else (s.entry a).timestamp < (s.entry b).timestamp

/-- `schedule` of both policies: the buffer as it leaves it, the choice in front.
SRCLINE: dram_ctrl.cc:665-672, 889-893 -/
def schedule (k : DramKnobs) (s : DramCtrl) (buffer : List DrbId) : List DrbId :=
  match k.policy with
  | .fcfs => buffer
  | .frfcfs => buffer.mergeSort fun a b => !s.sortFunc b a

/-- The entry `e` comes into service at bank `b`.
SRCLINE: dram_ctrl.cc:640-648 -/
def selectEntry (s : DramCtrl) (b : ℕ) (e : DrbId) (buffer : List DrbId) : DramCtrl :=
  let s := { s with currentList := Function.update s.currentList b (some e) }
  let s := s.modifyEntry e fun entry => { entry with state := .cmd, scheduled := s.cycle }
  let s := s.note b .select
  { s with
    buffer := Function.update s.buffer b (buffer.filter (· ≠ e))
    bankReady := Function.update s.bankReady b none
    bankTimestamp := Function.update s.bankTimestamp b s.cycle }

/-- One bank of `bank_schedule_new`; `none` is a failed assertion.
SRCLINE: dram_ctrl.cc:633-661 -/
def newBank (k : DramKnobs) (s : DramCtrl) (b : ℕ) : Option DramCtrl :=
  match s.currentList b with
  | none =>
      if s.buffer b = [] then some s
      else
        match s.schedule k (s.buffer b) with
        | [] => none
        | e :: rest => some (s.selectEntry b e (e :: rest))
  | some e =>
      if s.reached (s.bankReady b) ∧ (s.entry e).state = .cmdWait then
        let s := s.modifyEntry e fun entry => { entry with state := .cmd }
        some { s with
          bankReady := Function.update s.bankReady b none
          bankTimestamp := Function.update s.bankTimestamp b s.cycle }
      else some s

/-- `dram_ctrl_c::bank_schedule_new`.
SRCLINE: dram_ctrl.cc:631-662 -/
def bankScheduleNew (k : DramKnobs) (s : DramCtrl) : Option DramCtrl :=
  (List.range k.numBank).foldlM (newBank k) s

/-! ## Channels -/

/-- The bank with the oldest timestamp among those that are ready: the selection loop of both
channel functions. -/
def pickBank (s : DramCtrl) (ready : ℕ → Bool) (banks : List ℕ) : Option ℕ :=
  banks.foldl (fun best jj =>
    if ready jj ∧ best.all (s.bankTimestamp jj < s.bankTimestamp ·) then some jj else best) none

/-- The entry in service at bank `b` is in the state `st`. -/
def currentIn (s : DramCtrl) (b : ℕ) (st : DramState) : Bool :=
  (s.currentList b).any fun e => (s.entry e).state = st

/-- The command that the entry `e` of bank `b` needs next: activate, column access or
precharge.
SRCLINE: dram_ctrl.cc:699-733 -/
def issueCommand (k : DramKnobs) (s : DramCtrl) (b : ℕ) (e : DrbId) : DramCtrl :=
  if s.currentRid b = BitVec.allOnes 64 then
    let s := { s with
      currentRid := Function.update s.currentRid b (s.entry e).rid
      bankReady := Function.update s.bankReady b (some (s.cycle + k.activate))
      dataAvail := Function.update s.dataAvail b none }
    (s.modifyEntry e fun entry => { entry with state := .cmdWait }).note b .activate
  else if (s.entry e).rid = s.currentRid b then
    let s := { s with
      bankReady := Function.update s.bankReady b (some (s.cycle + k.column))
      dataAvail := Function.update s.dataAvail b (some (s.cycle + k.column)) }
    (s.modifyEntry e fun entry => { entry with state := .data }).note b .column
  else
    let s := { s with
      currentRid := Function.update s.currentRid b (BitVec.allOnes 64)
      bankReady := Function.update s.bankReady b (some (s.cycle + k.precharge))
      dataAvail := Function.update s.dataAvail b none }
    (s.modifyEntry e fun entry => { entry with state := .cmdWait }).note b .precharge

/-- Mark the request of an entry.
SRCLINE: dram_ctrl.cc:701, 763 -/
def markReq (s : DramCtrl) (e : DrbId) (st : MemReqState) : Option DramCtrl :=
  (s.entry e).req.map fun r => s.modifyReq r fun req => { req with state := st }

/-- One channel of `channel_schedule_cmd`; `none` is a null pointer.
SRCLINE: dram_ctrl.cc:684-736 -/
def channelCmd (k : DramKnobs) (s : DramCtrl) (ii : ℕ) : Option DramCtrl :=
  match s.pickBank (s.currentIn · .cmd) (k.channelBanks ii) with
  | none => some s
  | some b =>
      match s.currentList b with
      | none => none
      | some e => (s.markReq e .dramCmd).map fun s => s.issueCommand k b e

/-- `dram_ctrl_c::channel_schedule_cmd`. -/
def channelScheduleCmd (k : DramKnobs) (s : DramCtrl) : Option DramCtrl :=
  (List.range k.numChannel).foldlM (channelCmd k) s

/-- `dram_ctrl_c::avail_data_bus`.
SRCLINE: dram_ctrl.cc:784-788 -/
def availDataBus (s : DramCtrl) (ii : ℕ) : Bool := s.dbusReady ii ≤ s.cycle

/-- `dram_ctrl_c::acquire_data_bus`: the cycle at which the transfer is finished.
SRCLINE: dram_ctrl.cc:791-812 -/
def acquireDataBus (k : DramKnobs) (s : DramCtrl) (ii reqSize : ℕ) : DramCtrl × ℕ :=
  if reqSize < s.byteAvail ii then
    ({ s with
        byteAvail := Function.update s.byteAvail ii (s.byteAvail ii - reqSize)
        dbusReady := Function.update s.dbusReady ii s.cycle }, s.cycle)
  else
    let latency := s.cycle + (reqSize - s.byteAvail ii) / k.busWidth + 1
    ({ s with
        byteAvail := Function.update s.byteAvail ii
          (k.busWidth - (reqSize - s.byteAvail ii) % k.busWidth)
        dbusReady := Function.update s.dbusReady ii latency }, latency)

/-- The entry `e` of bank `b` gets the data bus of channel `ii`.
SRCLINE: dram_ctrl.cc:763-772 -/
def transfer (k : DramKnobs) (s : DramCtrl) (ii b : ℕ) (e : DrbId) : DramCtrl :=
  let (s, ready) := s.acquireDataBus k ii (s.entry e).size
  let s := { s with
    dataReady := Function.update s.dataReady b (some ready)
    dataAvail := Function.update s.dataAvail b none }
  (s.modifyEntry e fun entry => { entry with state := .dataWait }).note b .data

/-- The `while` loop of `channel_schedule_data`.  Every round takes a bank out of the state
`DRAM_DATA`, so there are at most as many rounds as the channel has banks.
SRCLINE: dram_ctrl.cc:750-776 -/
def channelDataLoop (k : DramKnobs) (ii : ℕ) : ℕ → DramCtrl → Option DramCtrl
  | 0, s => some s
  | rounds + 1, s =>
      if s.availDataBus ii then
        match s.pickBank (fun jj => s.currentIn jj .data && s.reached (s.dataAvail jj))
            (k.channelBanks ii) with
        | none => some s
        | some b =>
            match s.currentList b with
            | none => none
            | some e => do
                let s ← s.markReq e .dramData
                channelDataLoop k ii rounds (s.transfer k ii b e)
      else some s

/-- `dram_ctrl_c::channel_schedule_data`.
SRCLINE: dram_ctrl.cc:739-778 -/
def channelScheduleData (k : DramKnobs) (s : DramCtrl) : Option DramCtrl :=
  (List.range k.numChannel).foldlM (fun s ii => channelDataLoop k ii k.numBankPerChannel s) s

/-! ## Requests go out -/

/-- `dram_ctrl_c::delay_packet`.
SRCLINE: dram_ctrl.cc:541-559 -/
def delayPacket (s : DramCtrl) : DramCtrl :=
  let tempList := s.tmpOutputBuffer.takeWhile fun r => (s.reqs r).rdyCycle ≤ s.cycle
  { s with
    outputBuffer := s.outputBuffer ++ tempList
    tmpOutputBuffer := s.tmpOutputBuffer.filter (· ∉ tempList) }

/-- The variables of `send` besides the controller: `req_type_checked` and `temp_list`. -/
structure SendState where
  checked : Bool → Bool
  tempList : List ℕ
  ctrl : DramCtrl

/-- The network takes the message of the request `r`. -/
def sendReq (s : DramCtrl) (r : ℕ) : DramCtrl :=
  { s with sent := s.sent ++ [DramSent.mk r (s.reqs r).msgType (s.reqs r).llcId s.cycle] }

/-- The inner loop of `send`, for requests whose kind is `allowed`; `accepts` is the answer of
the network.
SRCLINE: dram_ctrl.cc:587-608 -/
def sendScan (accepts : ℕ → Bool) (allowed : Bool → Bool) : List ℕ → SendState → SendState
  | [], t => t
  | r :: rest, t =>
      let acc := (t.ctrl.reqs r).acc
      if allowed acc then
        let ctrl := t.ctrl.modifyReq r fun req => { req with msgType := .fill }
        let checked := Function.update t.checked acc true
        if accepts r then
          sendScan accepts allowed rest ⟨checked, t.tempList ++ [r], ctrl.sendReq r⟩
        else ⟨checked, t.tempList, ctrl⟩
      else sendScan accepts allowed rest t

/-- One pass of `send` over the output buffer; kinds that were tried before are left out. -/
def sendRound (accepts : ℕ → Bool) (t : SendState) : SendState :=
  sendScan accepts (fun g => !t.checked g) t.ctrl.outputBuffer t

/-- The passes of `send`: a second one when the virtual channels are partitioned and not both
kinds were tried. -/
def sendRounds (k : DramKnobs) (accepts : ℕ → Bool) (s : DramCtrl) : SendState :=
  let t := sendRound accepts ⟨fun _ => false, [], s⟩
  if k.enableNocVcPartition ∧ ¬ (t.checked false ∧ t.checked true) then sendRound accepts t
  else t

/-- `dram_ctrl_c::send`.
SRCLINE: dram_ctrl.cc:565-613 -/
def send (k : DramKnobs) (accepts : ℕ → Bool) (s : DramCtrl) : DramCtrl :=
  let t := sendRounds k accepts s
  { t.ctrl with outputBuffer := t.ctrl.outputBuffer.filter (· ∉ t.tempList) }

/-! ## Cycles -/

/-- `dram_ctrl_c::progress_check`; `none` is the failed assertion.
SRCLINE: dram_ctrl.cc:381-394 -/
def progressCheck (s : DramCtrl) : Option DramCtrl :=
  let starvation :=
    if 0 < s.totalReq ∧ s.numCompletedInLastCycle = 0 then s.starvationCycle + 1 else 0
  if 5000 ≤ starvation then none else some { s with starvationCycle := starvation }

def tick (s : DramCtrl) : DramCtrl := { s with cycle := s.cycle + 1 }

/-- `dram_ctrl_c::run_a_cycle`.
SRCLINE: dram_ctrl.cc:344-369 -/
def runACycle (k : DramKnobs) (pllLock : Bool) (accepts : ℕ → Bool) (s : DramCtrl) :
    Option DramCtrl :=
  if pllLock then some s.tick
  else do
    let s := s.send k accepts
    let s := if k.delayed then s.delayPacket else s
    let s ← s.channelScheduleCmd k
    let s ← s.channelScheduleData k
    let s ← s.bankScheduleComplete k
    let s ← s.bankScheduleNew k
    let s ← s.receive k
    let s ← s.progressCheck
    return s.tick

/-- The network delivers a request. -/
def arrive (s : DramCtrl) (req : DramReq) : DramCtrl :=
  { s with
    reqs := Function.update s.reqs s.arrived req
    incoming := s.incoming ++ [s.arrived]
    arrived := s.arrived + 1 }

/-- `memory_c::adjust_req`, for what the controllers read: a prefetch becomes the demand
`req`.
SRCLINE: memory.cc:1774-1783, 1938-1969 -/
def adjustReq (s : DramCtrl) (r : ℕ) (req : DramReq) : DramCtrl :=
  let old := s.reqs r
  let s := s.modifyReq r fun _ =>
    { req with state := old.state, rdyCycle := old.rdyCycle, msgType := old.msgType }
  if old.acc = req.acc then s else { s with reclassified := s.reclassified ++ [r] }

end DramCtrl

/-- What can happen: the surroundings act, or a routine of the controller runs.  The routines
that `run_a_cycle` calls are here one by one too, so that a run may interleave them in any
way. -/
inductive DramAction where
  | arrive (req : DramReq)
  | adjustReq (r : ℕ) (req : DramReq)
  | runACycle (pllLock : Bool) (accepts : ℕ → Bool)
  | send (accepts : ℕ → Bool)
  | delayPacket
  | channelScheduleCmd
  | channelScheduleData
  | bankScheduleComplete
  | bankScheduleNew
  | receive
  | flushPrefetch (b : ℕ)
  | tick

namespace DramCtrl

/-- One action; `none` is a failed assertion, a null pointer or an action that the
surroundings cannot take.  Only a prefetch is promoted, and only to a demand. -/
def step (k : DramKnobs) (s : DramCtrl) : DramAction → Option DramCtrl
  | .arrive req => some (s.arrive req)
  | .adjustReq r req =>
      if r < s.arrived ∧ (s.reqs r).type = .dprf ∧ req.type ≠ .dprf ∧ req.type ≠ .wb then
        some (s.adjustReq r req)
      else none
  | .runACycle pllLock accepts => s.runACycle k pllLock accepts
  | .send accepts => some (s.send k accepts)
  | .delayPacket => if k.delayed then some s.delayPacket else none
  | .channelScheduleCmd => s.channelScheduleCmd k
  | .channelScheduleData => s.channelScheduleData k
  | .bankScheduleComplete => s.bankScheduleComplete k
  | .bankScheduleNew => s.bankScheduleNew k
  | .receive => s.receive k
  | .flushPrefetch b => if b < k.numBank then s.flushPrefetch b else none
  | .tick => some s.tick

/-- The states of a controller in every run. -/
inductive Reachable (k : DramKnobs) : DramCtrl → Prop
  | new (completed starvation : ℤ) (reqs : ℕ → DramReq) :
      Reachable k (new k completed starvation reqs)
  | step {s s' : DramCtrl} (a : DramAction) (h : Reachable k s) (hs : s.step k a = some s') :
      Reachable k s'

/-- A run of given actions from a new controller. -/
def run (k : DramKnobs) (actions : List DramAction) (reqs : ℕ → DramReq) : Option DramCtrl :=
  actions.foldlM (step k) (new k 0 0 reqs)

/-- Actions lead from a reachable state to a reachable one. -/
theorem reachable_foldlM {k : DramKnobs} {s s' : DramCtrl} {actions : List DramAction}
    (h : s.Reachable k) (hs : actions.foldlM (step k) s = some s') : s'.Reachable k := by
  induction actions generalizing s with
  | nil =>
      cases hs
      exact h
  | cons a actions ih =>
      rw [List.foldlM_cons] at hs
      obtain ⟨t, ht, hs⟩ := Option.bind_eq_some_iff.mp hs
      exact ih (h.step a ht) hs

/-- A run whose outcome is observed reaches a state with that outcome. -/
theorem reachable_run {β : Type} (k : DramKnobs) (actions : List DramAction)
    (reqs : ℕ → DramReq) (g : DramCtrl → β) (x : β) (h : (run k actions reqs).map g = some x) :
    ∃ s, s.Reachable k ∧ g s = x := by
  obtain ⟨s, hs, hx⟩ := Option.map_eq_some_iff.mp h
  exact ⟨s, reachable_foldlM (.new 0 0 reqs) hs, hx⟩

end DramCtrl

/-! ## A small controller -/

/-- One controller with two banks and rows of 2 KB, for the examples. -/
def smallMap : AddrKnobs :=
  { numL3 := 1, numLlc := 1, dramNumMc := 1, l3NumSet := 64, l3LineSize := 64, llcNumSet := 64
    llcAssoc := 4, llcLineSize := 64, llcNumBank := 1, dramRowbufferSize := 2048
    dramNumBanks := 2, dramInterleaveFactor := 128, defaultInterleaving := true
    newInterleavingDiffGranularity := false }

/-- Two entries a bank, requests merged, five cycles of additional latency. -/
def smallDram : DramKnobs :=
  { map := smallMap, policy := .fcfs, numChannel := 1, busWidth := 64, bufferSize := 2
    precharge := 2, activate := 3, column := 4, additionalLatency := 5, meeBypass := true
    mergeRequests := true, bankXorIndex := true, enableNocVcPartition := true
    banks_pos := by decide
    banks_lt := by decide }

/-- A request of one line. -/
def lineReq (addr : Addr) (type : MemReqType) (acc : Bool) : DramReq :=
  { addr := addr, type := type, size := 64, acc := acc, coreId := 0, llcId := 0, state := .new
    rdyCycle := 0, msgType := .new }

/-- Cycles in which the network takes everything. -/
def dramCycles (n : ℕ) : List DramAction :=
  List.replicate n (.runACycle false fun _ => true)

end MacSim.Model
