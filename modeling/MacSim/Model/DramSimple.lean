import MacSim.Model.DramCtrl

/-!
# The simple DRAM controller

`dram_simple_ctrl_c` has no banks.  A request that it receives goes into the output buffer and
is sent when the latency is over.  Requests are numbered as they are for `dram_ctrl_c`.
-/

set_option autoImplicit false

namespace MacSim.Model

/-- `dram_simple_ctrl_c` with the requests that it can reach. -/
structure DramSimple where
  reqs : ℕ → DramReq
  /-- the receive queue of the router of this controller -/
  incoming : List ℕ
  outputBuffer : List ℕ
  cycle : ℕ
  /-- records: the number of requests delivered -/
  arrived : ℕ
  /-- records: the requests that `receive` took -/
  received : List ℕ
  sent : List DramSent

namespace DramSimple

/-- The state after construction.
SRCLINE: dram_ctrl.cc:895-900 -/
def new (reqs : ℕ → DramReq) : DramSimple :=
  { reqs := reqs, incoming := [], outputBuffer := [], cycle := 0, arrived := 0, received := []
    sent := [] }

/-- Write fields of a request. -/
def modifyReq (s : DramSimple) (r : ℕ) (f : DramReq → DramReq) : DramSimple :=
  { s with reqs := Function.update s.reqs r (f (s.reqs r)) }

/-- The network takes the message of the request `r`. -/
def sendReq (s : DramSimple) (r : ℕ) : DramSimple :=
  { s with sent := s.sent ++ [DramSent.mk r (s.reqs r).msgType (s.reqs r).llcId s.cycle] }

/-- The loop of `send`, with `temp_list`; `accepts` is the answer of the network.
SRCLINE: dram_ctrl.cc:924-945 -/
def sendScan (accepts : ℕ → Bool) : List ℕ → List ℕ → DramSimple → List ℕ × DramSimple
  | [], tempList, s => (tempList, s)
  | r :: rest, tempList, s =>
      if s.cycle < (s.reqs r).rdyCycle then (tempList, s)
      else
        let s := s.modifyReq r fun req => { req with msgType := .fill }
        if accepts r then sendScan accepts rest (tempList ++ [r]) (s.sendReq r)
        else (tempList, s)

/-- `dram_simple_ctrl_c::send`.
SRCLINE: dram_ctrl.cc:921-950 -/
def send (accepts : ℕ → Bool) (s : DramSimple) : DramSimple :=
  let (tempList, s) := sendScan accepts s.outputBuffer [] s
  { s with outputBuffer := s.outputBuffer.filter (· ∉ tempList) }

/-- `dram_simple_ctrl_c::receive`.
SRCLINE: dram_ctrl.cc:952-964 -/
def receive (latency : ℕ) (s : DramSimple) : DramSimple :=
  match s.incoming with
  | [] => s
  | r :: rest =>
      let s := s.modifyReq r fun req => { req with rdyCycle := s.cycle + latency }
      { s with
        outputBuffer := s.outputBuffer ++ [r]
        incoming := rest
        received := s.received ++ [r] }

/-- `dram_simple_ctrl_c::run_a_cycle`.
SRCLINE: dram_ctrl.cc:910-919 -/
def runACycle (latency : ℕ) (pllLock : Bool) (accepts : ℕ → Bool) (s : DramSimple) :
    DramSimple :=
  if pllLock then { s with cycle := s.cycle + 1 }
  else
    let s := s.send accepts
    let s := s.receive latency
    { s with cycle := s.cycle + 1 }

/-- The network delivers a request. -/
def arrive (s : DramSimple) (req : DramReq) : DramSimple :=
  { s with
    reqs := Function.update s.reqs s.arrived req
    incoming := s.incoming ++ [s.arrived]
    arrived := s.arrived + 1 }

/-- `memory_c::adjust_req`, for what the controller reads.
SRCLINE: memory.cc:1774-1783, 1938-1969 -/
def adjustReq (s : DramSimple) (r : ℕ) (req : DramReq) : DramSimple :=
  s.modifyReq r fun old =>
    { req with state := old.state, rdyCycle := old.rdyCycle, msgType := old.msgType }

end DramSimple

/-- What can happen: the surroundings act, or the controller runs. -/
inductive SimpleAction where
  | arrive (req : DramReq)
  | adjustReq (r : ℕ) (req : DramReq)
  | runACycle (pllLock : Bool) (accepts : ℕ → Bool)

namespace DramSimple

/-- One action; only a prefetch is promoted, and only to a demand. -/
def step (latency : ℕ) (s : DramSimple) : SimpleAction → Option DramSimple
  | .arrive req => some (s.arrive req)
  | .adjustReq r req =>
      if r < s.arrived ∧ (s.reqs r).type = .dprf ∧ req.type ≠ .dprf ∧ req.type ≠ .wb then
        some (s.adjustReq r req)
      else none
  | .runACycle pllLock accepts => some (s.runACycle latency pllLock accepts)

/-- The states of a controller in every run. -/
inductive Reachable (latency : ℕ) : DramSimple → Prop
  | new (reqs : ℕ → DramReq) : Reachable latency (new reqs)
  | step {s s' : DramSimple} (a : SimpleAction) (h : Reachable latency s)
      (hs : s.step latency a = some s') : Reachable latency s'

end DramSimple

end MacSim.Model
