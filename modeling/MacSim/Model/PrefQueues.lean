import Mathlib.Data.Nat.Notation
import Mathlib.Logic.Function.Basic
import MacSim.Model.Word

/-!
# The prefetch request queues

`hwp_common_c` has two circular queues of prefetch requests, one in front of the L1 and one in
front of the L2.  A slot is free when its request is not valid; the fields of a request that was
there stay.  Each queue has a position where the last request was inserted and one from which
the next is sent.

The framework is on and the hybrid and region selection are off.  The accuracy study is left out:
no call here sets `Begin`, so it never tracks a line.  What the memory answers is given from
outside.
-/

set_option autoImplicit false

namespace MacSim.Model

/-- `pref_mem_req_s`.  The number of a request is a record. -/
structure PrefMemReq where
  lineAddr : Addr
  lineIndex : Addr
  loadPC : Addr
  prefetcherId : ℕ
  valid : Bool
  coreId : ℕ
  threadId : ℕ
  id : ℕ
  deriving DecidableEq

/-- The knobs of the queues, with the line shift and the core. -/
structure PrefKnobs where
  dl0reqQueueSize : ℕ
  ul1reqQueueSize : ℕ
  dl0reqQueueFilterOn : Bool
  ul1reqQueueFilterOn : Bool
  dl0reqAddFilterOn : Bool
  ul1reqAddFilterOn : Bool
  dl0reqQueueOverwriteOnFull : Bool
  ul1reqQueueOverwriteOnFull : Bool
  dl0ScheduleNum : ℕ
  ul1ScheduleNum : ℕ
  shiftBit : ℕ
  coreId : ℕ
  /-- the source divides by the sizes -/
  dl0_pos : 0 < dl0reqQueueSize
  ul1_pos : 0 < ul1reqQueueSize

/-- What becomes of a request that was inserted. -/
inductive PrefOutcome where
  /-- the L2 queue or the memory took it -/
  | forwarded
  /-- a negative address, which is not sent -/
  | negative
  /-- it hit in the L1 -/
  | hit
  /-- a demand filter cancelled it -/
  | cancelled
  deriving DecidableEq

/-- One of the two queues. -/
structure PrefQueue where
  slots : ℕ → PrefMemReq
  reqPos : ℤ
  sendPos : ℕ
  /-- records: the number of requests inserted -/
  inserted : ℕ
  /-- records: what became of requests, by number -/
  outcomes : List (ℕ × PrefOutcome)
  /-- records: the lines not inserted, and whether the request in the way is still to be sent -/
  blocked : List (Addr × Bool)
  /-- records: how often the send position has moved -/
  advanced : ℕ

namespace PrefQueue

/-- A queue after `pref_init`; the fields of the slots other than `valid` are not initialized.

SRCLINE: pref_common.cc:138-146 -/
def init (uninit : ℕ → PrefMemReq) : PrefQueue where
  slots := fun i => { uninit i with valid := false }
  reqPos := -1
  sendPos := 0
  inserted := 0
  outcomes := []
  blocked := []
  advanced := 0

/-- Some slot holds the line, valid or not. -/
abbrev HasLine (q : PrefQueue) (size : ℕ) (lineIndex : Addr) : Prop :=
  ∃ i < size, (q.slots i).lineIndex = lineIndex

/-- The request in the slot is pending: it is valid and nothing has become of it. -/
abbrev Waiting (q : PrefQueue) (i : ℕ) : Prop :=
  (q.slots i).valid = true ∧ (q.slots i).id ∉ q.outcomes.map Prod.fst

/-- A request for the line is pending. -/
abbrev Pending (q : PrefQueue) (size : ℕ) (lineIndex : Addr) : Prop :=
  ∃ i < size, q.Waiting i ∧ (q.slots i).lineIndex = lineIndex

/-- The slot behind the last insertion. -/
def nextSlot (q : PrefQueue) (size : ℕ) : ℕ := ((q.reqPos + 1) % size).toNat

/-- Record a line that is not inserted. -/
def block (q : PrefQueue) (lineIndex : Addr) (waiting : Bool) : PrefQueue :=
  { q with blocked := q.blocked ++ [(lineIndex, waiting)] }

/-- The end of `pref_addto_l1req_queue` and of `pref_addto_l2req_queue_set`, which are alike.

SRCLINE: pref_common.cc:469-499, pref_common.cc:536-705 -/
def add (q : PrefQueue) (size : ℕ) (addFilterOn overwriteOn : Bool) (newReq : PrefMemReq) :
    PrefQueue × Bool :=
  if newReq.lineIndex = 0 then (q, true)
  else if addFilterOn = true ∧ q.HasLine size newReq.lineIndex then
    (q.block newReq.lineIndex (decide (q.Pending size newReq.lineIndex)), true)
  else if (q.slots (q.nextSlot size)).valid = true ∧ overwriteOn = false then
    (q.block newReq.lineIndex (decide (q.Waiting (q.nextSlot size))), false)
  else
    ({ q with
      reqPos := q.nextSlot size
      slots := Function.update q.slots (q.nextSlot size)
        { newReq with valid := true, id := q.inserted }
      inserted := q.inserted + 1 }, true)

/-- Record what became of the request in a slot. -/
def record (q : PrefQueue) (i : ℕ) (outcome : PrefOutcome) : PrefQueue :=
  { q with outcomes := q.outcomes ++ [((q.slots i).id, outcome)] }

/-- The request in a slot is done with. -/
def settle (q : PrefQueue) (i : ℕ) (outcome : PrefOutcome) : PrefQueue :=
  { q.record i outcome with
    slots := Function.update q.slots i { q.slots i with valid := false } }

/-- The loop of `pref_l1req_queue_filter` and of `pref_l2req_queue_filter` over the slots from
`i` on. -/
def filterFrom (q : PrefQueue) (shiftBit : ℕ) (lineAddr : Addr) : ℕ → ℕ → PrefQueue × Bool
  | _, 0 => (q, false)
  | i, n + 1 =>
    if (q.slots i).valid = true ∧ (q.slots i).lineAddr >>> shiftBit = lineAddr >>> shiftBit then
      (q.settle i .cancelled, true)
    else q.filterFrom shiftBit lineAddr (i + 1) n

/-- Move the send position. -/
def advance (q : PrefQueue) (size : ℕ) : PrefQueue :=
  { q with sendPos := (q.sendPos + 1) % size, advanced := q.advanced + 1 }

end PrefQueue

/-- The part of `hwp_common_c` that holds the queues. -/
structure Prefetcher where
  l1 : PrefQueue
  l2 : PrefQueue

namespace Prefetcher

def init (uninit₁ uninit₂ : ℕ → PrefMemReq) : Prefetcher :=
  ⟨PrefQueue.init uninit₁, PrefQueue.init uninit₂⟩

/-- The local `new_req` is not initialized apart from `valid`.

SRCLINE: pref_common.cc:467-499 -/
def prefAddtoL1reqQueue (k : PrefKnobs) (s : Prefetcher) (uninit : PrefMemReq) (lineIndex : Addr)
    (prefetcherId : ℕ) : Prefetcher × Bool :=
  let r := s.l1.add k.dl0reqQueueSize k.dl0reqAddFilterOn k.dl0reqQueueOverwriteOnFull
    { uninit with
      lineAddr := lineIndex <<< k.shiftBit, lineIndex := lineIndex, prefetcherId := prefetcherId }
  ({ s with l1 := r.1 }, r.2)

/-- The request that `pref_addto_l2req_queue_set` inserts. -/
def l2Request (k : PrefKnobs) (lineIndex : Addr) (prefetcherId : ℕ) (loadPC : Addr) (tid : ℕ) :
    PrefMemReq :=
  { lineAddr := lineIndex <<< k.shiftBit, lineIndex := lineIndex, loadPC := loadPC
    prefetcherId := prefetcherId, valid := true, coreId := k.coreId, threadId := tid, id := 0 }

/-- SRCLINE: pref_common.cc:502-519, pref_common.cc:530-705 -/
def prefAddtoL2reqQueue (k : PrefKnobs) (s : Prefetcher) (lineIndex : Addr) (prefetcherId : ℕ)
    (loadPC : Addr) (tid : ℕ) : Prefetcher × Bool :=
  let r := s.l2.add k.ul1reqQueueSize k.ul1reqAddFilterOn k.ul1reqQueueOverwriteOnFull
    (l2Request k lineIndex prefetcherId loadPC tid)
  ({ s with l2 := r.1 }, r.2)

/-- SRCLINE: pref_common.cc:431-446 -/
def prefL1reqQueueFilter (k : PrefKnobs) (s : Prefetcher) (lineAddr : Addr) : Prefetcher × Bool :=
  if k.dl0reqQueueFilterOn = false then (s, false)
  else
    let r := s.l1.filterFrom k.shiftBit lineAddr 0 k.dl0reqQueueSize
    ({ s with l1 := r.1 }, r.2)

/-- SRCLINE: pref_common.cc:449-464 -/
def prefL2reqQueueFilter (k : PrefKnobs) (s : Prefetcher) (lineAddr : Addr) : Prefetcher × Bool :=
  if k.ul1reqQueueFilterOn = false then (s, false)
  else
    let r := s.l2.filterFrom k.shiftBit lineAddr 0 k.ul1reqQueueSize
    ({ s with l2 := r.1 }, r.2)

/-- The outcome of the request at the send position, whose slot stays valid. -/
def l1Done (k : PrefKnobs) (s : Prefetcher) (outcome : PrefOutcome) : Prefetcher :=
  { s with l1 := (s.l1.record s.l1.sendPos outcome).advance k.dl0reqQueueSize }

/-- One iteration of the loop over the L1 queue: `port` says whether the port is free and `hit`
whether the line is in the L1.

SRCLINE: pref_common.cc:722-764 -/
def l1Turn (k : PrefKnobs) (s : Prefetcher) (port hit : Bool) : Prefetcher :=
  let req := s.l1.slots s.l1.sendPos
  if req.valid = true then
    if port = false then s
    else if hit = true then s.l1Done k .hit
    else
      let r := s.prefAddtoL2reqQueue k req.lineIndex req.prefetcherId 0 0
      if r.2 = true then r.1.l1Done k .forwarded else r.1
  else { s with l1 := s.l1.advance k.dl0reqQueueSize }

/-- The loop over the L1 queue, from the iteration `ii` on. -/
def l1Turns (k : PrefKnobs) (port hit : ℕ → Bool) : ℕ → ℕ → Prefetcher → Prefetcher
  | _, 0, s => s
  | ii, n + 1, s => l1Turns k port hit (ii + 1) n (s.l1Turn k (port ii) (hit ii))

/-- The loop over the L2 queue, from the iteration `ii` on; `accepts` is the answer of
`new_mem_req`.

SRCLINE: pref_common.cc:767-824 -/
def l2Turns (k : PrefKnobs) (accepts : ℕ → Bool) : ℕ → ℕ → PrefQueue → PrefQueue
  | _, 0, q => q
  | ii, n + 1, q =>
    if (q.slots q.sendPos).valid = true then
      if (q.slots q.sendPos).lineAddr.toInt < 0 then
        l2Turns k accepts (ii + 1) n ((q.settle q.sendPos .negative).advance k.ul1reqQueueSize)
      else if accepts ii = true then
        l2Turns k accepts (ii + 1) n ((q.settle q.sendPos .forwarded).advance k.ul1reqQueueSize)
      else q
    else l2Turns k accepts (ii + 1) n (q.advance k.ul1reqQueueSize)

/-- SRCLINE: pref_common.cc:709-825 -/
def prefUpdateQueues (k : PrefKnobs) (s : Prefetcher) (port hit accepts : ℕ → Bool) : Prefetcher :=
  let s := l1Turns k port hit 0 k.dl0ScheduleNum s
  { s with l2 := l2Turns k accepts 0 k.ul1ScheduleNum s.l2 }

end Prefetcher

/-- The calls of the prefetchers, of the demand accesses and of the core. -/
inductive PrefStep where
  | addL1 (uninit : PrefMemReq) (lineIndex : Addr) (prefetcherId : ℕ)
  | addL2 (lineIndex : Addr) (prefetcherId : ℕ) (loadPC : Addr) (tid : ℕ)
  | filterL1 (lineAddr : Addr)
  | filterL2 (lineAddr : Addr)
  | update (port hit accepts : ℕ → Bool)

namespace Prefetcher

def step (k : PrefKnobs) (s : Prefetcher) : PrefStep → Prefetcher
  | .addL1 uninit lineIndex prefetcherId =>
    (s.prefAddtoL1reqQueue k uninit lineIndex prefetcherId).1
  | .addL2 lineIndex prefetcherId loadPC tid =>
    (s.prefAddtoL2reqQueue k lineIndex prefetcherId loadPC tid).1
  | .filterL1 lineAddr => (s.prefL1reqQueueFilter k lineAddr).1
  | .filterL2 lineAddr => (s.prefL2reqQueueFilter k lineAddr).1
  | .update port hit accepts => s.prefUpdateQueues k port hit accepts

def run (k : PrefKnobs) (s : Prefetcher) (steps : List PrefStep) : Prefetcher :=
  steps.foldl (step k) s

end Prefetcher

end MacSim.Model
