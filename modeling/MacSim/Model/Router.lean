import MacSim.Computation.Table
import MacSim.Model.MemReq

/-!
# The router

`router_c` of `network.cc` with its ring and mesh variants.  Each stage of the pipeline walks
over ports and virtual channels, picks work by some rule and then performs one action on it.
The actions are separate definitions (`creditBack`, `linkTraverse`, `switchGrant`,
`switchTraverse`, `routeCompute`, `vcGrant`, `injectPacket`); the stages below them only
choose.

A flit sits in exactly one buffer at a time, so buffers hold flits by value and a write
through a `flit_c *` is a write to the front of its buffer.  The source indexes virtual
channels by `m_output_vc_id`, which is `-1` while unset, calls through `m_link` and divides by
`m_num_vc - 1`; `Fault` names what goes wrong when these are not in order, next to the one
assertion of `stage_lt`.

The model is of the non-ideal mode with oldest-first arbitration, the only policy that the
allocation stages accept.
-/

set_option autoImplicit false

namespace MacSim.Model

open MacSim.Computation

/-- The routing classes are numbered `0` and `1`. -/
instance routingClassNeZero : NeZero 2 := ⟨two_ne_zero⟩

/-- What the network reads of a `mem_req_s`; `id` is the identity of the object. -/
structure NocReq where
  id : ℕ
  msgType : NocType
  size : ℕ
  msgSrc : ℕ
  msgDst : ℕ
  deriving DecidableEq, Repr

/-- The ports `LOCAL`, `LEFT`, `RIGHT`, `UP`, `DOWN`. -/
inductive Port where
  | loc | left | right | up | down
  deriving DecidableEq, Repr

/-- `m_opposite_dir`.
SRCLINE: network.cc:172-176 -/
def Port.opposite : Port → Port
  | loc => loc | left => right | right => left | up => down | down => up

/-- The pipeline states of a flit. -/
inductive FlitState where
  | init | ib | rc | vca | sa | st | lt
  deriving DecidableEq, Repr

/-- `flit_c`. -/
structure Flit where
  src : ℕ
  dst : ℕ
  dir : Option Port
  head : Bool
  tail : Bool
  req : NocReq
  state : FlitState
  timestamp : Counter
  rdyCycle : Counter
  id : ℕ
  deriving DecidableEq, Repr

/-- `credit_c`. -/
structure Credit where
  rdyCycle : Counter
  port : Port
  vc : ℕ
  deriving DecidableEq, Repr

inductive Topology where
  | ring | mesh
  deriving DecidableEq, Repr

/-- The knobs of the network and the number of nodes that ask for a router. -/
structure NocKnobs where
  topology : Topology
  numNode : ℕ
  numVc : ℕ
  linkLatency : ℕ
  linkWidth : ℕ
  gpuValidation : Bool
  useRrForNocInsertion : Bool
  deriving DecidableEq, Repr

/-- What stops a run of the source. -/
inductive Fault where
  | assertSt | nullLink | badIndex | divByZero
  deriving DecidableEq, Repr

/-- `router_c`.  Three fields are records that the source does not keep: `released` has, per
virtual channel, the flits that left through the local port and went back to the flit pool,
`accepted` the requests that `inject_packet` took and `received` those that `pop_req` removed. -/
structure Router where
  injectionBuffer : List NocReq
  reqBuffer : List NocReq
  nextVc : ℕ
  inputBuffer : Port → ℕ → List Flit
  route : Port → ℕ → Fin 2 → Port → Bool
  routeFixed : Port → ℕ → Option Port
  outputPortId : Port → ℕ → Option Port
  outputVcId : Port → ℕ → Option ℕ
  outputBuffer : Port → ℕ → List Flit
  outputVcAvail : Port → ℕ → Bool
  credit : Port → ℕ → ℤ
  linkAvail : Port → Counter
  swAvail : Port → Counter
  pendingCredit : List Credit
  cycle : Counter
  released : ℕ → List Flit
  accepted : List NocReq
  received : List NocReq

/-- All routers, by id. -/
structure Network where
  router : ℕ → Router

namespace NocKnobs

/-- The ports `0 .. m_num_port - 1`. -/
def ports (k : NocKnobs) : List Port :=
  match k.topology with
  | .ring => [.loc, .left, .right]
  | .mesh => [.loc, .left, .right, .up, .down]

def vcs (k : NocKnobs) : List ℕ := List.range k.numVc

/-- `m_num_router`: the mesh adds dummy routers up to the next square.
SRCLINE: network_ring.cc:72-83, network_mesh.cc:87-104 -/
def numRouter (k : NocKnobs) : ℕ :=
  match k.topology with
  | .ring => k.numNode
  | .mesh =>
      if Nat.sqrt k.numNode * Nat.sqrt k.numNode = k.numNode then k.numNode
      else (Nat.sqrt k.numNode + 1) * (Nat.sqrt k.numNode + 1)

/-- `sqrt(m_total_router)`, as an `int`. -/
def width (k : NocKnobs) : ℕ := Nat.sqrt k.numRouter

/-- `m_link`, as the `init` functions of the two topologies set it.
SRCLINE: network_ring.cc:131-138, network_mesh.cc:152-166 -/
def link (k : NocKnobs) (r : ℕ) (p : Port) : Option ℕ :=
  match k.topology, p with
  | .ring, .left => some ((r + k.numRouter - 1) % k.numRouter)
  | .ring, .right => some ((r + 1) % k.numRouter)
  | .mesh, .up => if 0 < r / k.width then some (r - k.width) else none
  | .mesh, .down => if r / k.width < k.width - 1 then some (r + k.width) else none
  | .mesh, .left => if r % k.width ≠ 0 then some (r - 1) else none
  | .mesh, .right => if r % k.width ≠ k.width - 1 then some (r + 1) else none
  | _, _ => none

/-- The number of flits of a packet.
SRCLINE: network.cc:305-308 -/
def numFlit (k : NocKnobs) (req : NocReq) : ℕ :=
  if req.msgType = .newWithData ∨ req.msgType = .fill then 1 + req.size / k.linkWidth else 1

end NocKnobs

/-- `m_injection_buffer_max_size`. -/
def injectionBufferMaxSize : ℕ := 32

/-- `m_buffer_max_size`. -/
def bufferMaxSize : ℕ := 10

/-- The initial value of `m_credit`. -/
def initialCredit : ℤ := 10

namespace Router

/-- The state after construction.  The source leaves `m_cycle` uninitialised.
SRCLINE: network.cc:159-223 -/
def new (cycle : Counter) : Router :=
  { injectionBuffer := [], reqBuffer := [], nextVc := 0
    inputBuffer := fun _ _ => []
    route := fun _ _ _ _ => false
    routeFixed := fun _ _ => none
    outputPortId := fun _ _ => none
    outputVcId := fun _ _ => none
    outputBuffer := fun _ _ => []
    outputVcAvail := fun _ _ => true
    credit := fun _ _ => initialCredit
    linkAvail := fun _ => 0
    swAvail := fun _ => 0
    pendingCredit := []
    cycle := cycle
    released := fun _ => []
    accepted := []
    received := [] }

/-- Rewrite the front flit of an input buffer. -/
def modifyFront (rt : Router) (p : Port) (v : ℕ) (f : Flit → Flit) : Router :=
  { rt with inputBuffer := upd rt.inputBuffer p v ((rt.inputBuffer p v).modify 0 f) }

/-- The front flit of an input buffer. -/
def front (rt : Router) (p : Port) (v : ℕ) : Option Flit := (rt.inputBuffer p v).head?

/-! ## Actions on one router -/

/-- A pending credit comes back.
SRCLINE: network.cc:713-715 -/
def creditBack (rt : Router) (c : Credit) (rest : List Credit) : Router :=
  { rt with credit := upd rt.credit c.port c.vc (rt.credit c.port c.vc + 1), pendingCredit := rest }

/-- `router_c::insert_packet`, with the ready cycle that `stage_lt` writes next.
SRCLINE: network.cc:687-696 -/
def insertPacket (rt : Router) (flit : Flit) (p : Port) (v : ℕ) (rdyCycle : Counter) : Router :=
  { rt with
    inputBuffer := upd rt.inputBuffer p v
      (rt.inputBuffer p v ++ [{ flit with state := .ib, rdyCycle := rdyCycle }]) }

/-- `router_c::insert_credit`.
SRCLINE: network.cc:702-704 -/
def insertCredit (rt : Router) (c : Credit) : Router :=
  { rt with pendingCredit := rt.pendingCredit ++ [c] }

/-- What `stage_lt` does to its own router when the flit `f` leaves on `port`, `vc`.
SRCLINE: network.cc:637-681 -/
def sendFlit (rt : Router) (port : Port) (vc : ℕ) (f : Flit) : Router :=
  let rt := { rt with outputBuffer := upd rt.outputBuffer port vc (rt.outputBuffer port vc).tail }
  let rt := if port ≠ .loc then { rt with credit := upd rt.credit port vc (rt.credit port vc - 1) }
    else rt
  let rt := if f.tail then { rt with outputVcAvail := upd rt.outputVcAvail port vc true } else rt
  let rt := if f.tail ∧ port = .loc then { rt with reqBuffer := rt.reqBuffer ++ [f.req] } else rt
  if port = .loc then
    { rt with released := Function.update rt.released vc (rt.released vc ++ [f]) }
  else rt

/-- Switch allocation for the front flit of `ip`, `ivc`.
SRCLINE: network.cc:497-501 -/
def switchGrant (rt : Router) (op ip : Port) (ivc : ℕ) : Router :=
  let rt := rt.modifyFront ip ivc fun f => { f with state := .sa }
  { rt with swAvail := Function.update rt.swAvail op (rt.cycle + 1) }

/-- What `stage_st` does to its own router when the flit `f` of `ip`, `ivc` crosses the switch
to `op`, `ovc`.
SRCLINE: network.cc:565-580 -/
def crossSwitch (rt : Router) (op ip : Port) (ivc ovc : ℕ) (f : Flit) : Router :=
  let rt :=
    { rt with
      outputBuffer :=
        upd rt.outputBuffer op ovc (rt.outputBuffer op ovc ++ [{ f with state := .st }])
      inputBuffer := upd rt.inputBuffer ip ivc (rt.inputBuffer ip ivc).tail }
  if f.tail then
    { rt with
      routeFixed := upd rt.routeFixed ip ivc none
      outputVcId := upd rt.outputVcId ip ivc none
      outputPortId := upd rt.outputPortId ip ivc none }
  else rt

/-- Route computation for the front flit of `p`, `v`: the enabled ports and the direction. -/
def routeCompute (rt : Router) (p : Port) (v : ℕ) (enabled : Fin 2 → Port → Bool)
    (dir : Option Port) : Router :=
  let rt := rt.modifyFront p v fun f => { f with state := .rc, dir := dir }
  { rt with route := upd rt.route p v enabled }

/-- Virtual-channel allocation.
SRCLINE: network.cc:448-456 -/
def vcGrant (rt : Router) (op : Port) (ovc : ℕ) (ip : Port) (ivc : ℕ) : Router :=
  let rt := rt.modifyFront ip ivc fun f => { f with state := .vca }
  { rt with
    outputPortId := upd rt.outputPortId ip ivc (some op)
    outputVcId := upd rt.outputVcId ip ivc (some ovc)
    outputVcAvail := upd rt.outputVcAvail op ovc false
    routeFixed := upd rt.routeFixed ip ivc (some op) }

/-- The flits of a packet.
SRCLINE: network.cc:341-372 -/
def packetFlits (k : NocKnobs) (cycle : Counter) (req : NocReq) : List Flit :=
  (List.range (k.numFlit req)).map fun jj =>
    { src := req.msgSrc, dst := req.msgDst, dir := none, head := jj == 0,
      tail := jj + 1 == k.numFlit req, req := req, state := .ib, timestamp := cycle,
      rdyCycle := cycle, id := jj }

/-- A packet enters the local input buffer.
SRCLINE: network.cc:321-377 -/
def injectPacket (k : NocKnobs) (rt : Router) (req : NocReq) (rest : List NocReq) (vc : ℕ) :
    Router :=
  { rt with
    injectionBuffer := rest
    inputBuffer := upd rt.inputBuffer .loc vc
      (rt.inputBuffer .loc vc ++ packetFlits k rt.cycle req) }

/-! ## Stages that touch one router -/

/-- The loop of `process_pending_credit`: the credits already passed over are `kept`.
SRCLINE: network.cc:706-719 -/
def creditLoop (now : Counter) (kept : List Credit) : List Credit → Router → Router
  | [], rt => rt
  | c :: rest, rt =>
      if c.rdyCycle ≤ now then creditLoop now kept rest (rt.creditBack c (kept ++ rest))
      else creditLoop now (kept ++ [c]) rest rt

/-- `router_c::process_pending_credit` at simulation cycle `now`. -/
def processPendingCredit (now : Counter) (rt : Router) : Router :=
  creditLoop now [] rt.pendingCredit rt

/-- All pairs of an input port other than `op` and a virtual channel, in loop order. -/
def candidates (k : NocKnobs) (op : Port) : List (Port × ℕ) :=
  (k.ports.filter (· ≠ op)).flatMap fun ii => k.vcs.map fun jj => (ii, jj)

/-- The oldest of the candidates that are eligible: the shape of every arbitration loop.  The
best so far starts with the timestamp `ULLONG_MAX`. -/
def pickOldest (eligible : Port → ℕ → Option Flit) (cands : List (Port × ℕ)) :
    Option (Port × ℕ) :=
  (cands.foldl (fun (best : Counter × Option (Port × ℕ)) c =>
    match eligible c.1 c.2 with
    | some f => if f.timestamp < best.1 then (f.timestamp, some c) else best
    | none => best) (BitVec.allOnes 64, none)).2

/-- The flit that may take the switch to `op` from `ii`, `jj`.
SRCLINE: network.cc:523-532 -/
def saEligible (rt : Router) (op ii : Port) (jj : ℕ) : Option Flit :=
  if rt.routeFixed ii jj = some op ∧ rt.outputPortId ii jj = some op then
    (rt.front ii jj).filter fun f =>
      (f.head && f.state == .vca) || (!f.head && f.state == .ib)
  else none

/-- `router_c::stage_sa_pick_winner`.
SRCLINE: network.cc:515-541 -/
def stageSaPickWinner (k : NocKnobs) (rt : Router) (op : Port) : Option (Port × ℕ) :=
  pickOldest (rt.saEligible op) (candidates k op)

/-- One output port of `router_c::stage_sa`.
SRCLINE: network.cc:491-513 -/
def saPort (k : NocKnobs) (rt : Router) (op : Port) : Router :=
  if rt.swAvail op ≤ rt.cycle then
    match rt.stageSaPickWinner k op with
    | some (ip, ivc) => rt.switchGrant op ip ivc
    | none => rt
  else rt

def stageSa (k : NocKnobs) (rt : Router) : Router := k.ports.foldl (saPort k) rt

/-- The routes that `router_ring_c::stage_rc` enables for a head flit, and its direction.
SRCLINE: network_ring.cc:173-205 -/
def ringRoute (k : NocKnobs) (id : ℕ) (rt : Router) (port : Port) (vc : ℕ) (flit : Flit) :
    (Fin 2 → Port → Bool) × Option Port :=
  let only (p : Port) : Fin 2 → Port → Bool := fun c q =>
    if c = 0 then q = p else rt.route port vc c q
  if flit.dst = id then (only .loc, flit.dir)
  else
    match flit.dir with
    | some d => (only d, some d)
    | none =>
        let left : ℤ := if id > flit.dst then (id : ℤ) - flit.dst
          else (id : ℤ) - flit.dst + k.numRouter
        let right : ℤ := if id > flit.dst then (flit.dst : ℤ) - id + k.numRouter
          else (flit.dst : ℤ) - id
        if left < right then (only .left, some .left) else (only .right, some .right)

/-- The routes that `router_mesh_c::stage_rc` enables for a head flit: class `0` is adaptive,
class `1` the escape route.
SRCLINE: network_mesh.cc:207-241 -/
def meshRoute (k : NocKnobs) (id : ℕ) (flit : Flit) : Fin 2 → Port → Bool :=
  let xSrc := id % k.width
  let ySrc := id / k.width
  let xDst := flit.dst % k.width
  let yDst := flit.dst / k.width
  fun c p =>
    if flit.dst = id then p = .loc
    else
      match p with
      | .loc => false
      | .left => xSrc > xDst
      | .right => xSrc < xDst
      | .up => ySrc > yDst ∧ (c = 0 ∨ xSrc = xDst)
      | .down => ySrc < yDst ∧ (c = 0 ∨ xSrc = xDst)

/-- One input channel of `stage_rc`.
SRCLINE: network_ring.cc:164-213, network_mesh.cc:199-256 -/
def rcChannel (k : NocKnobs) (id : ℕ) (rt : Router) (port : Port) (vc : ℕ) : Router :=
  match rt.front port vc with
  | none => rt
  | some flit =>
      if flit.head ∧ flit.state = .ib ∧ flit.rdyCycle ≤ rt.cycle then
        match k.topology with
        | .ring =>
            if rt.routeFixed port vc = none then
              rt.routeCompute port vc (ringRoute k id rt port vc flit).1
                (ringRoute k id rt port vc flit).2
            else rt
        | .mesh => rt.routeCompute port vc (meshRoute k id flit) flit.dir
      else rt

def stageRc (k : NocKnobs) (id : ℕ) (rt : Router) : Router :=
  (k.ports.flatMap fun port => k.vcs.map fun vc => (port, vc)).foldl
    (fun rt c => rcChannel k id rt c.1 c.2) rt

/-- `rc_index` of `stage_vca_pick_winner`; the mesh divides by `m_num_vc - 1`.
SRCLINE: network_ring.cc:217, network_mesh.cc:260 -/
def rcIndex (k : NocKnobs) (ovc : ℕ) : Except Fault (Fin 2) :=
  match k.topology with
  | .ring => .ok 0
  | .mesh =>
      if k.numVc = 1 then .error .divByZero
      else if h : ovc / (k.numVc - 1) < 2 then .ok ⟨ovc / (k.numVc - 1), h⟩
      else .error .badIndex

/-- The test by which the ring keeps the last two virtual channels acyclic.
SRCLINE: network_ring.cc:234-240 -/
def ringVcAllowed (k : NocKnobs) (id ovc : ℕ) (flit : Flit) : Bool :=
  if (ovc : ℤ) < (k.numVc : ℤ) - 2 then true
  else if (ovc : ℤ) = (k.numVc : ℤ) - 2 then !decide (id > flit.dst)
  else if (ovc : ℤ) = (k.numVc : ℤ) - 1 then !decide (id < flit.dst)
  else true

/-- The flit that may take `op`, `ovc` from `ii`, `jj`.
SRCLINE: network_ring.cc:228-249, network_mesh.cc:271-284 -/
def vcaEligible (k : NocKnobs) (id : ℕ) (rt : Router) (cls : Fin 2) (op : Port) (ovc : ℕ)
    (ii : Port) (jj : ℕ) : Option Flit :=
  if rt.route ii jj cls op then
    (rt.front ii jj).filter fun f =>
      (match k.topology with
        | .ring => ringVcAllowed k id ovc f
        | .mesh => true) && f.head && f.state == .rc
  else none

/-- `stage_vca_pick_winner` of both topologies. -/
def stageVcaPickWinner (k : NocKnobs) (id : ℕ) (rt : Router) (op : Port) (ovc : ℕ) :
    Except Fault (Option (Port × ℕ)) :=
  match rcIndex k ovc with
  | .error e => .error e
  | .ok cls => .ok (pickOldest (rt.vcaEligible k id cls op ovc) (candidates k op))

/-- One output channel of `router_c::stage_vca`.
SRCLINE: network.cc:440-468 -/
def vcaChannel (k : NocKnobs) (id : ℕ) (rt : Router) (op : Port) (ovc : ℕ) :
    Except Fault Router :=
  if rt.outputVcAvail op ovc then
    match rt.stageVcaPickWinner k id op ovc with
    | .error e => .error e
    | .ok (some (ip, ivc)) => .ok (rt.vcGrant op ovc ip ivc)
    | .ok none => .ok rt
  else .ok rt

def stageVca (k : NocKnobs) (id : ℕ) (rt : Router) : Except Fault Router :=
  (k.ports.flatMap fun port => k.vcs.map fun vc => (port, vc)).foldlM
    (fun rt c => vcaChannel k id rt c.1 c.2) rt

/-- The order in which `local_packet_injection` tries the channels. -/
def injectionOrder (k : NocKnobs) (rt : Router) : List ℕ :=
  if k.gpuValidation then k.vcs.map fun ii => (rt.nextVc + ii) % k.numVc else k.vcs

/-- `m_next_vc` after one round that stopped at `found`.
SRCLINE: network.cc:382-386 -/
def advanceVc (k : NocKnobs) (rt : Router) (found : Option ℕ) : Router :=
  if k.gpuValidation ∧ k.useRrForNocInsertion then
    match found.or (rt.injectionOrder k).getLast? with
    | some last => { rt with nextVc := (last + 1) % k.numVc }
    | none => rt
  else rt

/-- The loop of `router_c::local_packet_injection` over the waiting requests.
SRCLINE: network.cc:290-391 -/
def injectLoop (k : NocKnobs) : List NocReq → Router → Router
  | [], rt => rt
  | req :: rest, rt =>
      match (rt.injectionOrder k).find? fun vc =>
          (rt.inputBuffer .loc vc).length + k.numFlit req ≤ bufferMaxSize with
      | some vc => injectLoop k rest ((rt.injectPacket k req rest vc).advanceVc k (some vc))
      | none => rt.advanceVc k none

def localPacketInjection (k : NocKnobs) (rt : Router) : Router :=
  injectLoop k rt.injectionBuffer rt

/-- `router_c::inject_packet`.
SRCLINE: network.cc:280-287 -/
def inject (rt : Router) (req : NocReq) : Bool × Router :=
  if rt.injectionBuffer.length < injectionBufferMaxSize then
    (true, { rt with
      injectionBuffer := rt.injectionBuffer ++ [req], accepted := rt.accepted ++ [req] })
  else (false, rt)

/-- `router_c::pop_req`; the callers pop only what `receive_req` has returned.
SRCLINE: network.cc:721-730 -/
def popReq (rt : Router) : Router :=
  match rt.reqBuffer with
  | [] => rt
  | req :: rest => { rt with reqBuffer := rest, received := rt.received ++ [req] }

end Router

namespace Network

/-- Rewrite one router. -/
def modify (net : Network) (r : ℕ) (f : Router → Router) : Network :=
  { router := Function.update net.router r (f (net.router r)) }

/-- The network after construction, with arbitrary first clock values. -/
def new (cycle : ℕ → Counter) : Network := { router := fun r => Router.new (cycle r) }

/-- `network_c::send` from the router `src` to the router `dst`.
SRCLINE: network.cc:119-129 -/
def send (net : Network) (req : NocReq) (src dst : ℕ) : Bool × Network :=
  let res := (net.router src).inject { req with msgSrc := src, msgDst := dst }
  (res.1, net.modify src fun _ => res.2)

/-! ## Stages that reach a neighbour -/

/-- The channel whose front flit `stage_lt` sends on `port`: the first in rotated order that
has a flit and a credit.
SRCLINE: network.cc:603-621 -/
def ltPick (k : NocKnobs) (rt : Router) (port : Port) :
    List ℕ → Except Fault (Option (ℕ × Flit))
  | [] => .ok none
  | iiD :: rest =>
      let ii := (BitVec.ofNat 64 iiD + rt.cycle).toNat % k.numVc
      match rt.outputBuffer port ii with
      | [] => ltPick k rt port rest
      | flit :: _ =>
          if rt.credit port ii = 0 then ltPick k rt port rest
          else if flit.state ≠ .st then .error .assertSt
          else if flit.timestamp < BitVec.allOnes 64 then .ok (some (ii, flit))
          else ltPick k rt port rest

/-- The flit `f` crosses the link of `port`, or leaves the network on the local port.
SRCLINE: network.cc:623-681 -/
def linkTraverse (k : NocKnobs) (net : Network) (r : ℕ) (port : Port) (vc : ℕ) (f : Flit) :
    Except Fault Network :=
  if port = .loc then .ok (net.modify r fun rt => rt.sendFlit port vc f)
  else
    match k.link r port with
    | none => .error .nullLink
    | some q =>
        let cycle := (net.router r).cycle
        let latency := BitVec.ofNat 64 k.linkLatency
        let net := net.modify q fun rt =>
          rt.insertPacket f port.opposite vc (cycle + latency + 1)
        let net := net.modify r fun rt =>
          { rt with linkAvail := Function.update rt.linkAvail port (cycle + latency) }
        .ok (net.modify r fun rt => rt.sendFlit port vc f)

/-- One output port of `router_c::stage_lt`.
SRCLINE: network.cc:599-682 -/
def ltPort (k : NocKnobs) (r : ℕ) (net : Network) (port : Port) : Except Fault Network :=
  let rt := net.router r
  if rt.cycle < rt.linkAvail port then .ok net
  else
    match ltPick k rt port k.vcs with
    | .error e => .error e
    | .ok none => .ok net
    | .ok (some (vc, f)) => net.linkTraverse k r port vc f

def stageLt (k : NocKnobs) (r : ℕ) (net : Network) : Except Fault Network :=
  k.ports.foldlM (ltPort k r) net

/-- The first channel of input port `ii` whose front flit holds the switch to `op`. -/
def stChannel (k : NocKnobs) (rt : Router) (op ii : Port) : Option (ℕ × Flit) :=
  k.vcs.findSome? fun jj =>
    if rt.routeFixed ii jj = some op ∧ rt.outputPortId ii jj = some op then
      ((rt.front ii jj).filter fun f => f.state == .sa).map fun f => (jj, f)
    else none

/-- The channel that crosses the switch to `op`: the loop keeps the last input port that has
one.
SRCLINE: network.cc:545-562 -/
def stPick (k : NocKnobs) (rt : Router) (op : Port) : Option (Port × ℕ × Flit) :=
  (k.ports.filter (· ≠ op)).foldl (fun found ii =>
    match stChannel k rt op ii with
    | some (jj, f) => some (ii, jj, f)
    | none => found) none

/-- The flit `f` of `ip`, `ivc` crosses the switch, and a credit goes back upstream.
SRCLINE: network.cc:564-589 -/
def switchTraverse (k : NocKnobs) (net : Network) (r : ℕ) (op ip : Port) (ivc : ℕ) (f : Flit) :
    Except Fault Network :=
  match (net.router r).outputVcId ip ivc with
  | none => .error .badIndex
  | some ovc =>
      let net := net.modify r fun rt => rt.crossSwitch op ip ivc ovc f
      if ip = .loc then .ok net
      else
        match k.link r ip with
        | none => .error .nullLink
        | some q =>
            .ok (net.modify q fun rt => rt.insertCredit
              { rdyCycle := (net.router r).cycle + 1, port := ip.opposite, vc := ivc })

/-- One output port of `router_c::stage_st`.
SRCLINE: network.cc:543-597 -/
def stPort (k : NocKnobs) (r : ℕ) (net : Network) (op : Port) : Except Fault Network :=
  match stPick k (net.router r) op with
  | none => .ok net
  | some (ip, ivc, f) => net.switchTraverse k r op ip ivc f

def stageSt (k : NocKnobs) (r : ℕ) (net : Network) : Except Fault Network :=
  k.ports.foldlM (stPort k r) net

/-- `router_c::run_a_cycle` at simulation cycle `now`.
SRCLINE: network.cc:252-277 -/
def runACycle (k : NocKnobs) (net : Network) (r : ℕ) (now : Counter) (pllLock : Bool) :
    Except Fault Network := do
  if pllLock then return net.modify r fun rt => { rt with cycle := rt.cycle + 1 }
  let net := net.modify r (Router.processPendingCredit now)
  let net ← stageLt k r net
  let net := net.modify r (Router.stageSa k)
  let net ← stageSt k r net
  let net := net.modify r (Router.stageRc k r)
  let rt ← Router.stageVca k r (net.router r)
  let net := net.modify r fun _ => rt
  let net := net.modify r (Router.localPacketInjection k)
  return net.modify r fun rt => { rt with cycle := rt.cycle + 1 }

end Network

end MacSim.Model
