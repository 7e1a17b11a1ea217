import MacSim.Model.DramCtrl

/-!
# The Ramulator controller

`dram_ramulator_c` hands the requests of the network to Ramulator and finds them again by
address when Ramulator calls back.  The controller works with any wrapper, whatever standards,
channels and mappings are behind it, so Ramulator is here a state with a function for `send` and
one for `tick`, which yields the requests whose callbacks it calls, in order; the DDR3 controllers
and the channels that a wrapper ticks are modelled on their own, under `Ramulator`.  Requests are
numbered as they are for `dram_ctrl_c`.  The conversion of an address to `long` loses nothing, so
an address stands for its conversion.
-/

set_option autoImplicit false

namespace MacSim.Model

/-- `ramulator::Request`; the callback is the read or the write one by its type. -/
structure RamuRequest where
  addr : Addr
  isWrite : Bool
  coreId : ℕ
  deriving DecidableEq, Repr

/-- `ramulator::RamulatorWrapper`. -/
structure RamulatorWrapper (σ : Type) where
  send : σ → RamuRequest → σ × Bool
  tick : σ → σ × List RamuRequest

/-- `dram_ramulator_c` with the requests that it can reach. -/
structure DramRamulator (σ : Type) where
  reqs : ℕ → DramReq
  /-- the receive queue of the router of this controller -/
  incoming : List ℕ
  requestsInFlight : ℕ
  ramuReads : Addr → Option (List ℕ)
  ramuWrites : Addr → Option (List ℕ)
  ramuRespQueue : List ℕ
  wrapper : σ
  cycle : ℕ
  /-- records: the number of requests delivered -/
  arrived : ℕ
  /-- records: the requests popped from the network, with what Ramulator was given -/
  received : List (ℕ × RamuRequest)
  /-- records: the requests completed, with the callback -/
  completed : List (ℕ × RamuRequest)
  freed : List ℕ
  sent : List DramSent

namespace DramRamulator

variable {σ : Type}

/-- The state after construction.

SRCLINE: dram_ramulator.cc:56-71 -/
def new (reqs : ℕ → DramReq) (wrapper : σ) : DramRamulator σ where
  reqs := reqs
  incoming := []
  requestsInFlight := 0
  ramuReads := fun _ => none
  ramuWrites := fun _ => none
  ramuRespQueue := []
  wrapper := wrapper
  cycle := 0
  arrived := 0
  received := []
  completed := []
  freed := []
  sent := []

/-- Write fields of a request. -/
def modifyReq (s : DramRamulator σ) (r : ℕ) (f : DramReq → DramReq) : DramRamulator σ :=
  { s with reqs := Function.update s.reqs r (f (s.reqs r)) }

/-- `map[addr].push_back(req)`. -/
def pushBack (map : Addr → Option (List ℕ)) (addr : Addr) (r : ℕ) : Addr → Option (List ℕ) :=
  Function.update map addr (some ((map addr).getD [] ++ [r]))

/-- Take the front of the queue that `find` yields and erase an empty queue.  There is no
result when there is no queue or it is empty, where the source's behaviour is undefined.

SRCLINE: dram_ramulator.cc:124-127 -/
def popFront (map : Addr → Option (List ℕ)) (addr : Addr) :
    Option (ℕ × (Addr → Option (List ℕ))) :=
  match map addr with
  | none => none
  | some [] => none
  | some (r :: rest) =>
    some (r, Function.update map addr (if rest = [] then none else some rest))

/-- SRCLINE: dram_ramulator.cc:122-135 -/
def readComplete (s : DramRamulator σ) (ramuReq : RamuRequest) : Option (DramRamulator σ) :=
  match popFront s.ramuReads ramuReq.addr with
  | none => none
  | some (r, ramuReads) =>
    let s := { s with ramuReads := ramuReads, requestsInFlight := s.requestsInFlight - 1 }
    let s := s.modifyReq r fun req => { req with state := .dramDone }
    some { s with
      ramuRespQueue := s.ramuRespQueue ++ [r]
      completed := s.completed ++ [(r, ramuReq)] }

/-- SRCLINE: dram_ramulator.cc:137-151 -/
def writeComplete (s : DramRamulator σ) (ramuReq : RamuRequest) : Option (DramRamulator σ) :=
  match popFront s.ramuWrites ramuReq.addr with
  | none => none
  | some (r, ramuWrites) =>
    let s := { s with ramuWrites := ramuWrites, requestsInFlight := s.requestsInFlight - 1 }
    let s := s.modifyReq r fun req => { req with state := .dramDone }
    some { s with
      freed := s.freed ++ [r]
      completed := s.completed ++ [(r, ramuReq)] }

/-- The callback of a request. -/
def callback (s : DramRamulator σ) (ramuReq : RamuRequest) : Option (DramRamulator σ) :=
  if ramuReq.isWrite then s.writeComplete ramuReq else s.readComplete ramuReq

/-- The callbacks of one tick. -/
def callbacks (s : DramRamulator σ) : List RamuRequest → Option (DramRamulator σ)
  | [] => some s
  | ramuReq :: rest => (s.callback ramuReq).bind fun s => s.callbacks rest

/-- The loop of `send_dimm_req` from the element at the iterator on; `accepts` is the answer of
the network.  The element popped is always the one at the iterator, and the iterator goes on to
the element behind it.

SRCLINE: dram_ramulator.cc:160-174 -/
def sendScan (accepts : ℕ → Bool) : List ℕ → DramRamulator σ → DramRamulator σ
  | [], s => s
  | r :: rest, s =>
    let s := s.modifyReq r fun req => { req with msgType := .fill }
    if accepts r then
      sendScan accepts rest { s with
        sent := s.sent ++ [DramSent.mk r (s.reqs r).msgType (s.reqs r).llcId s.cycle]
        ramuRespQueue := s.ramuRespQueue.tail }
    else s

/-- `send_dimm_req`.

SRCLINE: dram_ramulator.cc:157-175 -/
def send (accepts : ℕ → Bool) (s : DramRamulator σ) : DramRamulator σ :=
  sendScan accepts s.ramuRespQueue s

/-- What `receive_dimm_req` gives to Ramulator.

SRCLINE: dram_ramulator.cc:185-191 -/
def ramuRequest (req : DramReq) : RamuRequest :=
  { addr := req.addr, isWrite := req.type = .wb, coreId := req.coreId }

/-- The accepting branch of `receive_dimm_req`.

SRCLINE: dram_ramulator.cc:194-212 -/
def enqueue (s : DramRamulator σ) (r : ℕ) (rest : List ℕ) (ramuReq : RamuRequest) :
    DramRamulator σ :=
  let s :=
    if ramuReq.isWrite then { s with ramuWrites := pushBack s.ramuWrites ramuReq.addr r }
    else { s with ramuReads := pushBack s.ramuReads ramuReq.addr r }
  let s := { s with requestsInFlight := s.requestsInFlight + 1 }
  let s := s.modifyReq r fun req => { req with state := .dramStart }
  { s with incoming := rest, received := s.received ++ [(r, ramuReq)] }

/-- `receive` and `receive_dimm_req`.

SRCLINE: dram_ramulator.cc:177-220 -/
def receive (w : RamulatorWrapper σ) (s : DramRamulator σ) : DramRamulator σ :=
  match s.incoming with
  | [] => s
  | r :: rest =>
    let ramuReq := ramuRequest (s.reqs r)
    let sent := w.send s.wrapper ramuReq
    let s := { s with wrapper := sent.1 }
    if sent.2 then s.enqueue r rest ramuReq else s

/-- `dram_ramulator_c::run_a_cycle`.

SRCLINE: dram_ramulator.cc:115-120 -/
def runACycle (w : RamulatorWrapper σ) (accepts : ℕ → Bool) (s : DramRamulator σ) :
    Option (DramRamulator σ) :=
  let s := s.send accepts
  let (wrapper, called) := w.tick s.wrapper
  let s := { s with wrapper := wrapper }
  (s.callbacks called).map fun s =>
    let s := s.receive w
    { s with cycle := s.cycle + 1 }

/-- The network delivers a request. -/
def arrive (s : DramRamulator σ) (req : DramReq) : DramRamulator σ :=
  { s with
    reqs := Function.update s.reqs s.arrived req
    incoming := s.incoming ++ [s.arrived]
    arrived := s.arrived + 1 }

/-- `memory_c::adjust_req`, for what the controller reads.

SRCLINE: memory.cc:1774-1783, 1938-1969 -/
def adjustReq (s : DramRamulator σ) (r : ℕ) (req : DramReq) : DramRamulator σ :=
  s.modifyReq r fun old =>
    { req with state := old.state, rdyCycle := old.rdyCycle, msgType := old.msgType }

end DramRamulator

/-- What can happen: the surroundings act, or the controller runs. -/
inductive RamulatorAction where
  | arrive (req : DramReq)
  | adjustReq (r : ℕ) (req : DramReq)
  | runACycle (accepts : ℕ → Bool)

namespace DramRamulator

variable {σ : Type}

/-- One action; only a prefetch is promoted, and only to a demand.  There is no result when a
callback does not find its request. -/
def step (w : RamulatorWrapper σ) (s : DramRamulator σ) :
    RamulatorAction → Option (DramRamulator σ)
  | .arrive req => some (s.arrive req)
  | .adjustReq r req =>
    if (s.reqs r).type = .dprf ∧ req.type ≠ .dprf ∧ req.type ≠ .wb then some (s.adjustReq r req)
    else some s
  | .runACycle accepts => s.runACycle w accepts

/-- Any sequence of actions. -/
def run (w : RamulatorWrapper σ) (s : DramRamulator σ) :
    List RamulatorAction → Option (DramRamulator σ)
  | [] => some s
  | a :: actions => (s.step w a).bind fun s => s.run w actions

end DramRamulator

end MacSim.Model
