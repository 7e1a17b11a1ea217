import MacSim.Model.Router
import Mathlib.Logic.Relation

/-!
# The switching fabric

What the routers do together, without clocks, arbitration and pipeline order.  A fabric is the
buffers and tables of all routers over one kind of index, the channel (router, port, virtual
channel), and a step moves one flit, one credit or one request, in any order.  The fabric says
what wormhole switching is for; `MacSim.Analysis.FabricRefinement` shows that a tick of a
router of the source is a sequence of such steps.

The step relation keeps the guards that matter for safety and drops those that only decide
who goes first.
-/

set_option autoImplicit false

namespace MacSim.Model

open MacSim.Computation

/-- A virtual channel of a port of a router. -/
@[ext]
structure Chan where
  r : ℕ
  p : Port
  v : ℕ
  deriving DecidableEq, Repr

namespace NocKnobs

/-- The channel exists. -/
def Valid (k : NocKnobs) (c : Chan) : Prop := c.r < k.numRouter ∧ c.p ∈ k.ports ∧ c.v < k.numVc

/-- The input channel that the output channel `c` feeds. -/
def down (k : NocKnobs) (c : Chan) : Option Chan :=
  (k.link c.r c.p).map fun q => ⟨q, c.p.opposite, c.v⟩

/-- The port `p` of router `r` is a way out for a flit with destination `dst`. -/
def Leads (k : NocKnobs) (r dst : ℕ) (p : Port) : Prop :=
  (p = .loc ∧ dst = r) ∨ (p ≠ .loc ∧ p ∈ k.ports ∧ (k.link r p).isSome)

/-- The direction that a flit may carry. -/
def LegalDir (dir : Option Port) : Prop := ∀ d, dir = some d → d = .left ∨ d = .right

/-- A flit as `local_packet_injection` makes it: its flags tell its place in the packet. -/
structure Legal (k : NocKnobs) (f : Flit) : Prop where
  dst_eq : f.dst = f.req.msgDst
  dst_lt : f.dst < k.numRouter
  id_lt : f.id < k.numFlit f.req
  head_iff : f.head = true ↔ f.id = 0
  tail_iff : f.tail = true ↔ f.id + 1 = k.numFlit f.req
  dir_legal : LegalDir f.dir

/-- What the ring does for a head flit at router `r`: one port is opened, the local one at the
destination and otherwise that of its direction, which stays once it is set. -/
def RingRouted (r : ℕ) (f : Flit) (enabled : Port → Bool) (dir : Option Port) : Prop :=
  ∃ op, (∀ q, enabled q = true ↔ q = op) ∧
    ((f.dst = r ∧ op = .loc ∧ dir = f.dir) ∨
      (f.dst ≠ r ∧ op ≠ .loc ∧ dir = some op ∧ ∀ d, f.dir = some d → d = op))

end NocKnobs

/-- The buffers and tables of all routers. -/
@[ext]
structure Fabric where
  inp : Chan → List Flit
  out : Chan → List Flit
  outPort : Chan → Option Port
  outVc : Chan → Option ℕ
  avail : Chan → Bool
  route : Chan → Port → Bool
  credit : Chan → ℤ
  pending : ℕ → List Credit
  waiting : ℕ → List NocReq
  delivered : ℕ → List NocReq
  accepted : ℕ → List NocReq
  released : ℕ → ℕ → List Flit

namespace Fabric

/-- The fabric before the first request. -/
def empty : Fabric :=
  { inp := fun _ => [], out := fun _ => [], outPort := fun _ => none, outVc := fun _ => none
    avail := fun _ => true, route := fun _ _ => false, credit := fun _ => initialCredit
    pending := fun _ => [], waiting := fun _ => [], delivered := fun _ => []
    accepted := fun _ => [], released := fun _ _ => [] }

/-- The output channel is free again once a tail has left it. -/
def freed (F : Fabric) (c : Chan) (f : Flit) : Chan → Bool :=
  if f.tail then Function.update F.avail c true else F.avail

/-- The input channel `i` names the output channel `c`. -/
def Names (F : Fabric) (i c : Chan) : Prop :=
  i.r = c.r ∧ F.outPort i = some c.p ∧ F.outVc i = some c.v

/-- A name is dropped once the tail has crossed the switch. -/
def dropped {α : Type} (t : Chan → Option α) (i : Chan) (f : Flit) : Chan → Option α :=
  if f.tail then Function.update t i none else t

/-- One move of the fabric. -/
inductive Step (k : NocKnobs) : Fabric → Fabric → Prop
  | accept (F : Fabric) (r : ℕ) (req : NocReq) (hr : r < k.numRouter)
      (hdst : req.msgDst < k.numRouter) :
      Step k F
        { F with
          waiting := Function.update F.waiting r (F.waiting r ++ [req])
          accepted := Function.update F.accepted r (F.accepted r ++ [req]) }
  | inject (F : Fabric) (c : Chan) (req : NocReq) (rest : List NocReq) (cycle : Counter)
      (hc : k.Valid c) (hp : c.p = .loc) (hw : F.waiting c.r = req :: rest) :
      Step k F
        { F with
          waiting := Function.update F.waiting c.r rest
          inp := Function.update F.inp c (F.inp c ++ Router.packetFlits k cycle req) }
  | computeRoute (F : Fabric) (i : Chan) (f : Flit) (fs : List Flit) (enabled : Port → Bool)
      (dir : Option Port) (hi : k.Valid i) (hb : F.inp i = f :: fs) (hst : f.state = .ib)
      (hroute : k.Legal f → ∀ p, enabled p = true → k.Leads i.r f.dst p)
      (hdir : k.Legal f → NocKnobs.LegalDir dir) (hhead : f.head = true)
      (hring : k.Legal f → k.topology = .ring → NocKnobs.RingRouted i.r f enabled dir) :
      Step k F
        { F with
          inp := Function.update F.inp i ({ f with state := .rc, dir := dir } :: fs)
          route := Function.update F.route i enabled }
  | grantVc (F : Fabric) (i c : Chan) (f : Flit) (fs : List Flit) (hi : k.Valid i)
      (hc : k.Valid c) (hr : i.r = c.r) (hb : F.inp i = f :: fs) (hst : f.state = .rc)
      (hroute : F.route i c.p = true) (havail : F.avail c = true) :
      Step k F
        { F with
          inp := Function.update F.inp i ({ f with state := .vca } :: fs)
          outPort := Function.update F.outPort i (some c.p)
          outVc := Function.update F.outVc i (some c.v)
          avail := Function.update F.avail c false }
  | grantSwitch (F : Fabric) (i : Chan) (f : Flit) (fs : List Flit) (hi : k.Valid i)
      (hb : F.inp i = f :: fs)
      (hst : f.head = true ∧ f.state = .vca ∨ f.head = false ∧ f.state = .ib) :
      Step k F { F with inp := Function.update F.inp i ({ f with state := .sa } :: fs) }
  | crossLocal (F : Fabric) (i c : Chan) (f : Flit) (fs : List Flit) (hi : k.Valid i)
      (hn : F.Names i c) (hb : F.inp i = f :: fs) (hst : f.state = .sa) (hp : i.p = .loc) :
      Step k F
        { F with
          out := Function.update F.out c (F.out c ++ [{ f with state := .st }])
          inp := Function.update F.inp i fs
          outPort := dropped F.outPort i f
          outVc := dropped F.outVc i f }
  | cross (F : Fabric) (i c u : Chan) (f : Flit) (fs : List Flit) (rdy : Counter)
      (hi : k.Valid i) (hn : F.Names i c) (hb : F.inp i = f :: fs) (hst : f.state = .sa)
      (hp : i.p ≠ .loc) (hu : k.down i = some u) :
      Step k F
        { F with
          out := Function.update F.out c (F.out c ++ [{ f with state := .st }])
          inp := Function.update F.inp i fs
          outPort := dropped F.outPort i f
          outVc := dropped F.outVc i f
          pending := Function.update F.pending u.r
            (F.pending u.r ++ [{ rdyCycle := rdy, port := u.p, vc := u.v }]) }
  | eject (F : Fabric) (c : Chan) (f : Flit) (fs : List Flit) (hc : k.Valid c)
      (hb : F.out c = f :: fs) (hp : c.p = .loc) :
      Step k F
        { F with
          out := Function.update F.out c fs
          avail := F.freed c f
          delivered := if f.tail then
              Function.update F.delivered c.r (F.delivered c.r ++ [f.req]) else F.delivered
          released := upd F.released c.r c.v (F.released c.r c.v ++ [f]) }
  | forward (F : Fabric) (c d : Chan) (f : Flit) (fs : List Flit) (rdy : Counter)
      (hc : k.Valid c) (hb : F.out c = f :: fs) (hp : c.p ≠ .loc) (hd : k.down c = some d)
      (hcr : F.credit c ≠ 0) :
      Step k F
        { F with
          inp := Function.update F.inp d (F.inp d ++ [{ f with state := .ib, rdyCycle := rdy }])
          out := Function.update F.out c fs
          avail := F.freed c f
          credit := Function.update F.credit c (F.credit c - 1) }
  | creditBack (F : Fabric) (r : ℕ) (kept rest : List Credit) (cr : Credit)
      (hr : r < k.numRouter) (hb : F.pending r = kept ++ cr :: rest) :
      Step k F
        { F with
          credit := Function.update F.credit ⟨r, cr.port, cr.vc⟩
            (F.credit ⟨r, cr.port, cr.vc⟩ + 1)
          pending := Function.update F.pending r (kept ++ rest) }

/-- What makes a router of the fabric stop the simulation. -/
inductive FaultAt (k : NocKnobs) (F : Fabric) : Fault → Prop
  | assertSt (c : Chan) (f : Flit) (fs : List Flit) (hc : k.Valid c) (hb : F.out c = f :: fs)
      (hst : f.state ≠ .st) : FaultAt k F .assertSt
  | outNoLink (c : Chan) (hc : k.Valid c) (hp : c.p ≠ .loc) (hl : k.link c.r c.p = none)
      (hb : F.out c ≠ []) : FaultAt k F .nullLink
  | inpNoLink (i : Chan) (hi : k.Valid i) (hp : i.p ≠ .loc) (hl : k.link i.r i.p = none)
      (hb : F.inp i ≠ []) : FaultAt k F .nullLink
  | badVc (i : Chan) (p : Port) (hi : k.Valid i) (hp : F.outPort i = some p)
      (hv : F.outVc i = none) : FaultAt k F .badIndex
  | rcIndex (v : ℕ) (e : Fault) (hv : v < k.numVc) (h : Router.rcIndex k v = .error e) :
      FaultAt k F e

end Fabric

/-! ## The fabric of a network -/

/-- The usable part of `m_route`: the ring reads only class `0`. -/
def Router.usableRoute (k : NocKnobs) (rt : Router) (p : Port) (v : ℕ) (q : Port) : Bool :=
  match k.topology with
  | .ring => rt.route p v 0 q
  | .mesh => rt.route p v 0 q || rt.route p v 1 q

/-- All requests that have come out at the router. -/
def Router.delivered (rt : Router) : List NocReq := rt.received ++ rt.reqBuffer

namespace Network

/-- One per-channel array of all routers. -/
def table {α : Type} (net : Network) (g : Router → Port → ℕ → α) : Chan → α :=
  fun c => g (net.router c.r) c.p c.v

/-- One value of all routers. -/
def field {α : Type} (net : Network) (g : Router → α) : ℕ → α := fun r => g (net.router r)

/-- The fabric that a network implements. -/
def fabric (k : NocKnobs) (net : Network) : Fabric :=
  { inp := net.table Router.inputBuffer
    out := net.table Router.outputBuffer
    outPort := net.table Router.outputPortId
    outVc := net.table Router.outputVcId
    avail := net.table Router.outputVcAvail
    route := net.table (Router.usableRoute k)
    credit := net.table Router.credit
    pending := net.field Router.pendingCredit
    waiting := net.field Router.injectionBuffer
    delivered := net.field Router.delivered
    accepted := net.field Router.accepted
    released := net.field Router.released }

/-- The states of the network in every interleaving of sends, ticks and receives.  Routers
tick in any order, at any simulation cycle and with or without a PLL lock. -/
inductive Reachable (k : NocKnobs) : Network → Prop
  | new (cycle : ℕ → Counter) : Reachable k (Network.new cycle)
  | send (net : Network) (req : NocReq) (src dst : ℕ) (hsrc : src < k.numRouter)
      (hdst : dst < k.numRouter) (h : Reachable k net) : Reachable k (net.send req src dst).2
  | tick (net net' : Network) (r : ℕ) (now : Counter) (pllLock : Bool) (hr : r < k.numRouter)
      (h : Reachable k net) (ht : net.runACycle k r now pllLock = .ok net') : Reachable k net'
  | pop (net : Network) (r : ℕ) (hr : r < k.numRouter) (h : Reachable k net) :
      Reachable k (net.modify r Router.popReq)

/-- The routers of a list tick one after the other, each at its simulation cycle. -/
def ticks (k : NocKnobs) (net : Network) (l : List (ℕ × Counter)) : Except Fault Network :=
  l.foldlM (fun net t => net.runACycle k t.1 t.2 false) net

/-- Ticks of routers lead from a reachable network to a reachable one. -/
theorem Reachable.ticks {k : NocKnobs} {net net' : Network} {l : List (ℕ × Counter)}
    (h : net.Reachable k) (hl : ∀ t ∈ l, t.1 < k.numRouter)
    (ht : Network.ticks k net l = .ok net') : net'.Reachable k := by
  induction l generalizing net with
  | nil =>
      cases ht
      exact h
  | cons t l ih =>
      rw [Network.ticks, List.foldlM_cons] at ht
      cases hx : net.runACycle k t.1 t.2 false with
      | error e => simp [hx, bind, Except.bind] at ht
      | ok m =>
          simp only [hx, bind, Except.bind] at ht
          exact ih (h.tick _ _ _ _ _ (hl t (by simp)) hx) (fun u hu => hl u (by simp [hu])) ht

end Network

end MacSim.Model
