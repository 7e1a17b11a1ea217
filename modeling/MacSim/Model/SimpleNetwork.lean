import Mathlib.Data.Fintype.Basic
import Mathlib.Logic.Function.Basic

/-!
# The simple network

`network_simple_c` has no links.  In a network cycle every router in turn looks through its
injection buffer and moves requests straight to the ejection queue of the destination's router,
at most two from one source and at most two into one destination; a request whose destination
has had its share is skipped, and those behind it are still looked at.  The first router of a
cycle rotates with the simulation cycle.

A router is named by its index in `m_router`; the sender takes both ends from the router map.
-/

set_option autoImplicit false

namespace MacSim.Model

/-- A memory request on the network. -/
structure SimpleReq (n : ℕ) where
  id : ℕ
  msgSrc : Fin n
  msgDst : Fin n
  deriving DecidableEq

/-- The routers: the injection buffer and the ejection queue of each, and the number of
requests that it has accepted in this cycle. -/
structure SimpleNetwork (n : ℕ) where
  injectionBuffer : Fin n → List (SimpleReq n)
  reqBuffer : Fin n → List (SimpleReq n)
  packetInserted : Fin n → ℕ

namespace SimpleNetwork

variable {n : ℕ}

/-- SRCLINE: network.cc:167 -/
def injectionBufferMaxSize : ℕ := 32

/-- SRCLINE: network_simple.cc:111 -/
def maxNumInjectionFromSrc : ℕ := 2

/-- SRCLINE: network_simple.cc:112 -/
def maxNumAcceptInDst : ℕ := 2

/-- The network before its first cycle. -/
def init (n : ℕ) : SimpleNetwork n where
  injectionBuffer := fun _ => []
  reqBuffer := fun _ => []
  packetInserted := fun _ => 0

/-- `inject_packet` of the source's router, as `network_c::send` calls it.

SRCLINE: network.cc:126-134, network.cc:280-287 -/
def injectPacket (net : SimpleNetwork n) (req : SimpleReq n) : SimpleNetwork n × Bool :=
  if (net.injectionBuffer req.msgSrc).length < injectionBufferMaxSize then
    ({ net with
      injectionBuffer := Function.update net.injectionBuffer req.msgSrc
        (net.injectionBuffer req.msgSrc ++ [req]) }, true)
  else (net, false)

/-- `receive_req` and `pop_req`: the receiver takes the front of its ejection queue.

SRCLINE: network.cc:721-730 -/
def popReq (net : SimpleNetwork n) (dst : Fin n) : SimpleNetwork n :=
  { net with reqBuffer := Function.update net.reqBuffer dst (net.reqBuffer dst).tail }

/-- `insert_packet` of the destination's router, with the count of its insertions.

SRCLINE: network.cc:698-700, network_simple.cc:139-142 -/
def insertPacket (net : SimpleNetwork n) (req : SimpleReq n) : SimpleNetwork n :=
  { net with
    reqBuffer := Function.update net.reqBuffer req.msgDst (net.reqBuffer req.msgDst ++ [req])
    packetInserted := Function.update net.packetInserted req.msgDst
      (net.packetInserted req.msgDst + 1) }

/-- What the scan of an injection buffer leaves: the network, the requests that stay in the
buffer and those that were moved. -/
structure Scan (n : ℕ) where
  net : SimpleNetwork n
  kept : List (SimpleReq n)
  moved : List (SimpleReq n)

/-- The loop over an injection buffer.

SRCLINE: network_simple.cc:128-151 -/
def scan (net : SimpleNetwork n) (numCount : ℕ) : List (SimpleReq n) → Scan n
  | [] => ⟨net, [], []⟩
  | req :: rest =>
    if numCount ≥ maxNumInjectionFromSrc then ⟨net, req :: rest, []⟩
    else if net.packetInserted req.msgDst < maxNumAcceptInDst then
      let s := scan (net.insertPacket req) (numCount + 1) rest
      { s with moved := req :: s.moved }
    else
      let s := scan net numCount rest
      { s with kept := req :: s.kept }

/-- `process` of one router, with the requests it has moved.

SRCLINE: network_simple.cc:127-153 -/
def process (net : SimpleNetwork n) (src : Fin n) : SimpleNetwork n × List (SimpleReq n) :=
  let s := scan net 0 (net.injectionBuffer src)
  ({ s.net with injectionBuffer := Function.update s.net.injectionBuffer src s.kept }, s.moved)

/-- The routers of the list process one after the other. -/
def processAll (net : SimpleNetwork n) : List (Fin n) → SimpleNetwork n × List (SimpleReq n)
  | [] => (net, [])
  | src :: rest =>
    let p := net.process src
    let r := processAll p.1 rest
    (r.1, p.2 ++ r.2)

/-- The routers from the one the simulation cycle selects on. -/
def tickOrder (n cycle : ℕ) : List (Fin n) :=
  (List.finRange n).map fun k : Fin n =>
    ⟨(cycle % n + k.val) % n, Nat.mod_lt _ (Nat.zero_lt_of_lt k.isLt)⟩

/-- `run_a_cycle` of the network at a simulation cycle, with the requests it has moved.

SRCLINE: network_simple.cc:55-65 -/
def runACycle (net : SimpleNetwork n) (cycle : ℕ) : SimpleNetwork n × List (SimpleReq n) :=
  { net with packetInserted := fun _ => 0 }.processAll (tickOrder n cycle)

/-! ## Runs -/

/-- What happens to the network: a component sends a request, a component takes the front of
its ejection queue, or the network runs a cycle. -/
inductive Event (n : ℕ) where
  | send (req : SimpleReq n)
  | receive (dst : Fin n)
  | cycle (simulationCycle : ℕ)

/-- The network with the requests accepted and those taken by each receiver so far. -/
structure Traffic (n : ℕ) where
  net : SimpleNetwork n
  accepted : List (SimpleReq n)
  popped : Fin n → List (SimpleReq n)

namespace Traffic

def init (n : ℕ) : Traffic n := ⟨SimpleNetwork.init n, [], fun _ => []⟩

/-- All requests that have arrived at a router, in order of arrival. -/
def arrived (t : Traffic n) (dst : Fin n) : List (SimpleReq n) :=
  t.popped dst ++ t.net.reqBuffer dst

def step (t : Traffic n) : Event n → Traffic n
  | .send req =>
    let (net, ok) := t.net.injectPacket req
    if ok then { t with net := net, accepted := t.accepted ++ [req] } else t
  | .receive dst =>
    { t with
      net := t.net.popReq dst
      popped := Function.update t.popped dst
        (t.popped dst ++ (t.net.reqBuffer dst).head?.toList) }
  | .cycle simulationCycle => { t with net := (t.net.runACycle simulationCycle).1 }

def run (t : Traffic n) (events : List (Event n)) : Traffic n := events.foldl step t

end Traffic

end SimpleNetwork

end MacSim.Model
