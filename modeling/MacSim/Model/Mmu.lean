import MacSim.Model.LruTable
import Mathlib.Data.List.AList
import Mathlib.Data.List.Sort

/-!
# The memory management unit

`MMU` translates the addresses of uops.  A uop whose page is not in the TLB waits in the walk
queue; a walk finds the page in the page table or puts a fault into the fault buffer; faults
are resolved in batches, one frame after the other, and a page is evicted when no frame is
free.  Uops whose translation is done, or whose fault is resolved, wait in the retry queue.

Uops are numbers, with the fields that the MMU uses in a table.  What the caches answer to an
access and in which order a hash set is read are arguments.  Clock values and frame numbers are
unbounded numbers; `none` stands for the clock value `-1`.

The state has three parts.  `Paging` is the page table, the frames, the TLB and the replacement
unit; `Faults` is the buffer of faults and the batch that is processed; `Mmu` adds the uops and
the queues in which they wait.  The field `waiting` is not in the source.
-/

set_option autoImplicit false

namespace MacSim.Model

/-- The states that the MMU gives to a uop. -/
inductive TransState where
  | idle | begin | done | walkQueue | retryQueue | faultRetryQueue | faultBuffer
  deriving DecidableEq, Repr

/-- What the MMU uses of a `uop_c`; `applId` is what `get_appl_id` returns for its thread. -/
structure MmuUop where
  vaddr : Addr
  paddr : Addr
  applId : ℤ
  coreId : ℕ
  threadId : ℕ
  uopNum : ℕ
  parent : Option ℕ
  numPageTableWalks : ℤ
  translated : Bool
  state : TransState
  deriving DecidableEq, Repr

/-- The knobs of the MMU. -/
structure MmuKnobs where
  pageSize : ℕ
  memorySize : ℕ
  noPageSwap : Bool
  foolPageTable : Bool
  tlbNumEntry : ℕ
  walkLatency : ℕ
  faultLatency : ℕ
  evictionLatency : ℕ
  batchProcessingOverhead : ℕ
  faultBufferSize : ℕ
  deriving DecidableEq, Repr

/-- What stops a run: the assertions, and pointers that lead nowhere. -/
inductive MmuFault where
  | badPid | tlb | replacementUpdate | replacementInsert | noVictim | victimUnmapped | noFrame
  | frameTaken | endlessSearch | emptyBatch | noFaultUops | batchRunning
  deriving DecidableEq, Repr

namespace MmuKnobs

/-- `m_offset_bits`. -/
def offsetBits (k : MmuKnobs) : ℕ := log2Int k.pageSize

/-- The number of frames in swap mode. -/
def numFrames (k : MmuKnobs) : ℕ := k.memorySize >>> k.offsetBits

/-- SRCLINE: mmu.h:209-214 -/
def getPageNumber (k : MmuKnobs) (addr : Addr) : Addr := addr >>> k.offsetBits

def getPageOffset (k : MmuKnobs) (addr : Addr) : Addr := addr &&& BitVec.ofNat 64 (k.pageSize - 1)

/-- The physical address in a frame. -/
def physical (k : MmuKnobs) (frame : ℕ) (addr : Addr) : Addr :=
  (BitVec.ofNat 64 frame <<< k.offsetBits) ||| k.getPageOffset addr

/-- `MMU::get_pid`.
SRCLINE: mmu.cc:433-441 -/
def getPid (k : MmuKnobs) (uop : MmuUop) : Except MmuFault ℤ :=
  if k.foolPageTable then .ok (-1)
  else if uop.applId < 0 then .error .badPid
  else .ok uop.applId

/-- The page of a uop. -/
def keyOf (k : MmuKnobs) (uop : MmuUop) : Except MmuFault PageKey :=
  (k.getPid uop).map fun pid => ⟨k.getPageNumber uop.vaddr, pid⟩

end MmuKnobs

/-- A hash table from pages to lists of uops. -/
abbrev UopMap := AList fun _ : PageKey => List ℕ

/-- Add a uop to the list of a page, which is made if it does not exist. -/
def UopMap.push (m : UopMap) (key : PageKey) (u : ℕ) : UopMap :=
  m.insert key ((m.lookup key).getD [] ++ [u])

/-- `m_walk_queue_cycle[cycle].emplace_back(key)`; the map is ordered by cycle. -/
def emplaceWalk (cycle : ℕ) (key : PageKey) : List (ℕ × List PageKey) → List (ℕ × List PageKey)
  | [] => [(cycle, [key])]
  | (c, keys) :: rest =>
      if cycle < c then (cycle, [key]) :: (c, keys) :: rest
      else if cycle = c then (c, keys ++ [key]) :: rest
      else (c, keys) :: emplaceWalk cycle key rest

/-- The page table, the frames, and the two tables that go with them. -/
structure Paging where
  pageTable : PageKey → Option ℕ
  freeFramesRemaining : ℤ
  freeFrames : ℕ → Bool
  frameToAllocate : ℕ
  frameDimm : ℕ
  tlb : Tlb
  replacementUnit : ReplacementUnit

/-- The faults to be processed, the faults under processing, and the state of the batch. -/
structure Faults where
  faultBuffer : List PageKey
  faultUops : UopMap
  faultBufferProcessing : List PageKey
  faultUopsProcessing : UopMap
  batchProcessing : Bool
  firstTransferStarted : Bool
  transferStartCycle : Option ℕ
  nextEventCycle : Option ℕ

structure Mmu extends Paging, Faults where
  uops : ℕ → MmuUop
  /-- `m_per_thread_fault_parent_uops` of the cores -/
  faultParents : ℕ → ℕ → List ℕ
  cycle : ℕ
  walkQueueCycle : List (ℕ × List PageKey)
  walkQueuePage : UopMap
  retryQueue : List ℕ
  faultRetryQueue : List ℕ
  /-- `translate` has returned false for the uop, and no access was successful since -/
  waiting : ℕ → Bool

/-- The page table and the frames at the start.
SRCLINE: mmu.cc:134-150 -/
def initializePaging (k : MmuKnobs) : Paging :=
  { pageTable := fun _ => none
    freeFramesRemaining := if k.noPageSwap then 2 ^ 63 - 1 else k.numFrames
    freeFrames := fun _ => true
    frameToAllocate := 0
    frameDimm := 0
    tlb := LruTable.new k.tlbNumEntry (2 ^ 64 - 1)
    replacementUnit := LruTable.new (if k.noPageSwap then 0 else k.numFrames) () }

/-- `MMU::initialize`; the clock and a flag of the batch are not initialised.
SRCLINE: mmu.cc:126-164 -/
def initializeMmu (k : MmuKnobs) (cycle : ℕ) (started : Bool) (uops : ℕ → MmuUop) : Mmu :=
  { toPaging := initializePaging k
    uops := uops, faultParents := fun _ _ => [], cycle := cycle
    walkQueueCycle := [], walkQueuePage := ∅, retryQueue := [], faultRetryQueue := []
    faultBuffer := [], faultUops := ∅, faultBufferProcessing := [], faultUopsProcessing := ∅
    batchProcessing := false, firstTransferStarted := started, transferStartCycle := some 0
    nextEventCycle := none
    waiting := fun _ => false }

namespace Paging

/-- A page is swapped out.
SRCLINE: mmu.cc:455-475, 579-599 -/
def evict (p : Paging) : Except MmuFault Paging :=
  match ReplacementUnit.getVictim p.replacementUnit with
  | none => .error .noVictim
  | some (victim, replacementUnit) =>
      match p.pageTable victim with
      | none => .error .victimUnmapped
      | some frame =>
          match p.tlb.invalidate victim with
          | none => .error .tlb
          | some tlb =>
              .ok { p with
                replacementUnit := replacementUnit
                pageTable := Function.update p.pageTable victim none
                tlb := tlb
                freeFrames := Function.update p.freeFrames frame true
                freeFramesRemaining := p.freeFramesRemaining + 1
                frameToAllocate := frame }

/-- The `do` loop that looks for a free frame, for a number of rounds.
SRCLINE: mmu.cc:494-499 -/
def searchLoop (free : ℕ → Bool) (size start : ℕ) : ℕ → ℕ → Option ℕ
  | 0, _ => none
  | rounds + 1, frame =>
      let frame := (frame + 1) % size
      if frame ≠ start ∧ free frame = false then searchLoop free size start rounds frame
      else some frame

/-- The frame for the next page.  The search is over after one round of all frames.
SRCLINE: mmu.cc:489-507, 616-620 -/
def pickFrame (k : MmuKnobs) (p : Paging) : Except MmuFault Paging :=
  if k.noPageSwap then
    .ok { p with frameToAllocate := p.frameDimm, frameDimm := p.frameDimm + 1 }
  else if p.freeFrames p.frameToAllocate then .ok p
  else
    match searchLoop p.freeFrames k.numFrames p.frameToAllocate k.numFrames
        p.frameToAllocate with
    | none => .error .endlessSearch
    | some frame =>
        if p.freeFrames frame then .ok { p with frameToAllocate := frame } else .error .frameTaken

/-- The page is mapped to the frame that was picked.  An entry that exists stays; no pid is
passed to the replacement unit.
SRCLINE: mmu.cc:518-529 -/
def mapPage (k : MmuKnobs) (p : Paging) (key : PageKey) : Except MmuFault Paging :=
  let frame := p.frameToAllocate
  let p := { p with
    pageTable := Function.update p.pageTable key ((p.pageTable key).or (some frame)) }
  if k.noPageSwap then .ok p
  else
    match p.replacementUnit.insert ⟨key.page, defaultPid⟩ () with
    | none => .error .replacementInsert
    | some replacementUnit =>
        .ok { p with
          replacementUnit := replacementUnit
          freeFrames := Function.update p.freeFrames frame false
          freeFramesRemaining := p.freeFramesRemaining - 1 }

end Paging

namespace Mmu

/-- Write fields of a uop. -/
def modifyUop (s : Mmu) (u : ℕ) (f : MmuUop → MmuUop) : Mmu :=
  { s with uops := Function.update s.uops u (f (s.uops u)) }

/-- `uop->m_state = state`. -/
def setState (s : Mmu) (u : ℕ) (state : TransState) : Mmu :=
  s.modifyUop u fun uop => { uop with state := state }

/-- Change `m_num_page_table_walks` of the parent, if there is one. -/
def addWalks (s : Mmu) (u : ℕ) (d : ℤ) : Mmu :=
  match (s.uops u).parent with
  | none => s
  | some p => s.modifyUop p fun uop =>
      { uop with numPageTableWalks := uop.numPageTableWalks + d }

/-- `m_num_page_table_walks` of the parent, if there is one. -/
def parentWalks (s : Mmu) (u : ℕ) : Option ℤ :=
  (s.uops u).parent.map fun p => (s.uops p).numPageTableWalks

/-! ## Translation -/

/-- The part of `translate` for a TLB miss: the uop joins the walk of its page, or starts one.
SRCLINE: mmu.cc:206-223 -/
def joinWalk (k : MmuKnobs) (s : Mmu) (u : ℕ) (key : PageKey) : Mmu :=
  let s :=
    if key ∈ s.walkQueuePage then s
    else { s with
      walkQueueCycle := emplaceWalk (s.cycle + k.walkLatency) key s.walkQueueCycle }
  let s := { s with walkQueuePage := s.walkQueuePage.push key u }
  let s := (s.setState u .walkQueue).addWalks u 1
  { s with waiting := Function.update s.waiting u true }

/-- `MMU::translate`.
SRCLINE: mmu.cc:170-224 -/
def translate (k : MmuKnobs) (s : Mmu) (u : ℕ) : Except MmuFault (Bool × Mmu) :=
  if (s.uops u).translated then .ok (true, s)
  else do
    let key ← k.keyOf (s.uops u)
    let s := s.setState u .begin
    if s.tlb.lookup key then
      match s.tlb.translate key with
      | none => .error .tlb
      | some (frame, tlb) =>
          return (true, { s with tlb := tlb }.modifyUop u fun uop =>
            { uop with paddr := k.physical frame uop.vaddr, state := .done, translated := true })
    else return (false, s.joinWalk k u key)

/-- `dcu_c::access` of the first level; `answer` is what the caches say to a translated
address: `0` if the access has to be made again.
SRCLINE: memory.cc:407-416 -/
def access (k : MmuKnobs) (s : Mmu) (u : ℕ) (answer : ℤ) : Except MmuFault (ℤ × Mmu) := do
  let (success, s) ← s.translate k u
  if success then
    return (answer,
      if answer ≠ 0 then { s with waiting := Function.update s.waiting u false } else s)
  else return (-1, s)

/-! ## Page table walks -/

/-- A walk found the frame: the TLB entry is made or refreshed.
SRCLINE: mmu.cc:350-352 -/
def fillTlb (t : Tlb) (key : PageKey) (frame : ℕ) : Option Tlb :=
  (if t.lookup key then some t else t.insert key frame).bind fun t => t.update key

/-- The replacement unit is told of a hit, in swap mode; no pid is passed.
SRCLINE: mmu.cc:354-356 -/
def touchPage (k : MmuKnobs) (t : ReplacementUnit) (page : Addr) : Option ReplacementUnit :=
  if k.noPageSwap then some t else t.update ⟨page, defaultPid⟩

/-- The uop of a walk that found its page.
SRCLINE: mmu.cc:343-348 -/
def walkDone (k : MmuKnobs) (s : Mmu) (u : ℕ) (frame : ℕ) : Mmu :=
  let s := s.modifyUop u fun uop =>
    { uop with paddr := k.physical frame uop.vaddr, state := .retryQueue, translated := true }
  if s.parentWalks u = some 0 then s else s.addWalks u (-1)

/-- SRCLINE: mmu.cc:342-368 -/
def pageTableHit (k : MmuKnobs) (s : Mmu) (u : ℕ) (key : PageKey) (frame : ℕ) :
    Except MmuFault Mmu :=
  match fillTlb s.tlb key frame, touchPage k s.replacementUnit key.page with
  | none, _ => .error .tlb
  | some _, none => .error .replacementUpdate
  | some tlb, some replacementUnit =>
      let s := s.walkDone k u frame
      .ok { s with
        tlb := tlb
        replacementUnit := replacementUnit
        retryQueue := s.retryQueue ++ [u] }

/-- The fault buffer is full, and the parent of the uop has no fault in it yet.
SRCLINE: mmu.cc:373-387 -/
def mustRetry (k : MmuKnobs) (s : Mmu) (u : ℕ) (key : PageKey) : Bool :=
  (s.uops u).parent.any fun p =>
    (s.uops p).uopNum ∉ s.faultParents (s.uops u).coreId (s.uops u).threadId &&
      key ∉ s.faultBuffer && k.faultBufferSize ≤ s.faultBuffer.length

/-- The bookkeeping of faults of a parent uop.
SRCLINE: mmu.cc:395-404 -/
def noteFault (s : Mmu) (u : ℕ) : Mmu :=
  match (s.uops u).parent with
  | none => s
  | some p =>
      let s := s.addWalks u (-1)
      let core := (s.uops u).coreId
      let thread := (s.uops u).threadId
      let parents :=
        if (s.uops p).numPageTableWalks = 0 then []
        else (s.uops p).uopNum :: s.faultParents core thread
      let perThread := Function.update (s.faultParents core) thread parents
      { s with faultParents := Function.update s.faultParents core perThread }

/-- SRCLINE: mmu.cc:368-414 -/
def pageFault (k : MmuKnobs) (s : Mmu) (u : ℕ) (key : PageKey) : Mmu :=
  if s.mustRetry k u key then
    { (s.setState u .faultRetryQueue) with faultRetryQueue := s.faultRetryQueue ++ [u] }
  else
    let s := { s with
      faultBuffer := if key ∈ s.faultBuffer then s.faultBuffer else s.faultBuffer ++ [key]
      faultUops := s.faultUops.push key u }
    (s.noteFault u).setState u .faultBuffer

/-- `MMU::do_page_table_walks`.
SRCLINE: mmu.cc:335-416 -/
def doPageTableWalks (k : MmuKnobs) (s : Mmu) (u : ℕ) : Except MmuFault Mmu := do
  let key ← k.keyOf (s.uops u)
  match s.pageTable key with
  | some frame => s.pageTableHit k u key frame
  | none => return s.pageFault k u key

/-! ## Cycles -/

/-- The loop over the retry queue: `kept` was passed over, the rest is to be tried.
SRCLINE: mmu.cc:232-291 -/
def retryLoop (k : MmuKnobs) (answers : ℕ → ℤ) :
    List ℕ → List ℕ → Mmu → Except MmuFault Mmu
  | _, [], s => .ok s
  | kept, u :: rest, s => do
      let (latency, s) ← s.access k u (answers u)
      if latency ≠ 0 then retryLoop k answers kept rest { s with retryQueue := kept ++ rest }
      else retryLoop k answers (kept ++ [u]) rest s

/-- Faults that did not fit into the fault buffer are tried again once it is empty.
SRCLINE: mmu.cc:294-307 -/
def retryFaults (k : MmuKnobs) (s : Mmu) : Except MmuFault Mmu :=
  if s.faultBuffer = [] then
    s.faultRetryQueue.foldlM (doPageTableWalks k) { s with faultRetryQueue := [] }
  else .ok s

/-- The walk of one page.
SRCLINE: mmu.cc:314-320 -/
def walkPage (k : MmuKnobs) (s : Mmu) (key : PageKey) : Except MmuFault Mmu := do
  let s ← ((s.walkQueuePage.lookup key).getD []).foldlM (doPageTableWalks k) s
  return { s with walkQueuePage := s.walkQueuePage.erase key }

/-- The loop over the walks that are due.
SRCLINE: mmu.cc:309-327 -/
def walkLoop (k : MmuKnobs) : List (ℕ × List PageKey) → Mmu → Except MmuFault Mmu
  | [], s => .ok s
  | (c, keys) :: rest, s =>
      if c ≤ s.cycle then do
        let s ← keys.foldlM (walkPage k) s
        walkLoop k rest { s with walkQueueCycle := rest }
      else .ok s

/-- `MMU::run_a_cycle`.
SRCLINE: mmu.cc:226-333 -/
def runACycle (k : MmuKnobs) (pllLock : Bool) (answers : ℕ → ℤ) (s : Mmu) :
    Except MmuFault Mmu :=
  if pllLock then .ok { s with cycle := s.cycle + 1 }
  else do
    let s ← retryLoop k answers [] s.retryQueue s
    let s ← s.retryFaults k
    let s ← walkLoop k s.walkQueueCycle s
    return { s with cycle := s.cycle + 1 }

/-! ## Batches of faults -/

/-- A clock value that is in the future. -/
def before (s : Mmu) (time : Option ℕ) : Bool := time.all (s.cycle < ·)

/-- The next transfer is prepared, with an eviction if no frame is free.
SRCLINE: mmu.cc:449-478, 572-602 -/
def prepareTransfer (k : MmuKnobs) (s : Mmu) : Except MmuFault Mmu :=
  if 0 < s.freeFramesRemaining then
    .ok { s with nextEventCycle := some (s.cycle + k.faultLatency) }
  else do
    let p ← s.toPaging.evict
    return { s with
      toPaging := p
      nextEventCycle := some (s.cycle + k.evictionLatency + k.faultLatency) }

/-- Uops go to the retry queue. -/
def retryUops (s : Mmu) (l : List ℕ) : Mmu :=
  { l.foldl (fun s u => s.setState u .retryQueue) s with retryQueue := s.retryQueue ++ l }

/-- The uops of a resolved fault go to the retry queue, with those that came to the same page
since the batch was begun.
SRCLINE: mmu.cc:532-567 -/
def releaseUops (s : Mmu) (key : PageKey) : Except MmuFault Mmu :=
  match s.faultUopsProcessing.lookup key with
  | none => .error .noFaultUops
  | some l =>
      let s := { s.retryUops l with faultUopsProcessing := s.faultUopsProcessing.erase key }
      match s.faultUops.lookup key with
      | none => .ok s
      | some l' => .ok { s.retryUops l' with
          faultUops := s.faultUops.erase key
          faultBuffer := s.faultBuffer.erase key }

/-- The end of the transfer of one page.
SRCLINE: mmu.cc:486-568 -/
def resolveFault (k : MmuKnobs) (s : Mmu) : Except MmuFault Mmu :=
  if s.freeFramesRemaining ≤ 0 then .error .noFrame
  else do
    let p ← s.toPaging.pickFrame k
    match s.faultBufferProcessing with
    | [] => .error .emptyBatch
    | key :: rest =>
        let p ← p.mapPage k key
        { s with toPaging := p, faultBufferProcessing := rest }.releaseUops key

/-- The end of a batch.
SRCLINE: mmu.cc:607-613 -/
def endBatch (s : Mmu) : Mmu :=
  { s with
    batchProcessing := false, firstTransferStarted := false, transferStartCycle := none
    nextEventCycle := none }

/-- `MMU::do_batch_processing`.
SRCLINE: mmu.cc:443-615 -/
def doBatchProcessing (k : MmuKnobs) (s : Mmu) : Except MmuFault (Bool × Mmu) :=
  if s.before s.transferStartCycle then .ok (false, s)
  else if !s.firstTransferStarted then do
    let s ← s.prepareTransfer k
    return (false, { s with firstTransferStarted := true })
  else if s.before s.nextEventCycle then .ok (false, s)
  else do
    let s ← s.resolveFault k
    if s.faultBufferProcessing = [] then return (true, s.endBatch)
    else return (false, ← s.prepareTransfer k)

/-- `MMU::begin_batch_processing`; `order` is the fault buffer in the order in which it is
read.
SRCLINE: mmu.cc:622-643 -/
def beginBatchProcessing (k : MmuKnobs) (order : List PageKey) (s : Mmu) : Except MmuFault Mmu :=
  if s.batchProcessing then .error .batchRunning
  else .ok { s with
    faultBufferProcessing :=
      (s.faultBufferProcessing ++ order).insertionSort fun a b => a.page ≤ b.page
    faultUopsProcessing := s.faultUops
    faultBuffer := []
    faultUops := ∅
    batchProcessing := true
    firstTransferStarted := false
    transferStartCycle := some (s.cycle + k.batchProcessingOverhead)
    nextEventCycle := none }

/-- The second half of `handle_page_faults`. -/
def startBatch (k : MmuKnobs) (order : List PageKey) (s : Mmu) : Except MmuFault Mmu :=
  if s.faultBuffer = [] then .ok s else s.beginBatchProcessing k order

/-- `MMU::handle_page_faults`.
SRCLINE: mmu.cc:418-431 -/
def handlePageFaults (k : MmuKnobs) (order : List PageKey → List PageKey) (s : Mmu) :
    Except MmuFault Mmu :=
  if s.batchProcessing then do
    let (ended, s) ← s.doBatchProcessing k
    if ended then s.startBatch k (order s.faultBuffer) else return s
  else s.startBatch k (order s.faultBuffer)

end Mmu

/-- What can happen to an MMU.  A uop that does not wait can be given other contents, when its
object is used again. -/
inductive MmuAction where
  | translate (u : ℕ)
  | renew (u : ℕ) (uop : MmuUop)
  | resetWalks (u : ℕ)
  | runACycle (pllLock : Bool) (answers : ℕ → ℤ)
  | handlePageFaults (order : List PageKey → List PageKey)

/-- The ways to read a hash set. -/
def ReadsAll (order : List PageKey → List PageKey) : Prop := ∀ l, (order l).Perm l

namespace Mmu

/-- One action. -/
def step (k : MmuKnobs) (s : Mmu) : MmuAction → Except MmuFault Mmu
  | .translate u => (s.translate k u).map (·.2)
  | .renew u uop => .ok (s.modifyUop u fun _ => { uop with translated := false })
  | .resetWalks u => .ok (s.modifyUop u fun uop => { uop with numPageTableWalks := 0 })
  | .runACycle pllLock answers => s.runACycle k pllLock answers
  | .handlePageFaults order => s.handlePageFaults k order

/-- The surroundings can take the action: a core does not hand in a uop that waits. -/
def Allowed (s : Mmu) : MmuAction → Prop
  | .translate u => s.waiting u = false
  | .renew u _ => s.waiting u = false
  | .handlePageFaults order => ReadsAll order
  | _ => True

/-- The states of an MMU in every run. -/
inductive Reachable (k : MmuKnobs) : Mmu → Prop
  | start (cycle : ℕ) (started : Bool) (uops : ℕ → MmuUop) :
      Reachable k (initializeMmu k cycle started uops)
  | step {s s' : Mmu} (a : MmuAction) (h : Reachable k s) (ha : s.Allowed a)
      (hs : s.step k a = .ok s') : Reachable k s'

end Mmu

end MacSim.Model
