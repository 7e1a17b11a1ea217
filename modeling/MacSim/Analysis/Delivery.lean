import MacSim.Analysis.WormOwnership
import Mathlib.Data.Multiset.Basic
import Mathlib.Algebra.Order.Group.Multiset

/-!
# Every accepted request is delivered at most once and never lost

A request is in flight while the tail of its packet is in a buffer.  Each move of the fabric
carries at most one tail from one place to another, so the accepted requests are at all times
the waiting ones, those in flight and the delivered ones (`accepted_eq`), as multisets: the same
request may be sent more than once.  What has left through a local port is, per virtual
channel, a sequence of whole packets with the flits in order and at most one incomplete packet
after them; the delivered requests are those of the whole packets.
-/

set_option autoImplicit false

namespace MacSim.Analysis

open MacSim.Model MacSim.Computation

variable {k : NocKnobs}

/-! ## Counting tails -/

/-- The requests whose tail is in the list. -/
def tails (l : List Flit) : Multiset NocReq := ((l.filter (·.tail)).map (·.req) : List NocReq)

/-- The tails of two lists add up. -/
@[simp] theorem tails_append (l l' : List Flit) : tails (l ++ l') = tails l + tails l' := by
  simp [tails]

/-- One flit has one tail at most. -/
theorem tails_singleton (f : Flit) : tails [f] = if f.tail then {f.req} else 0 := by
  unfold tails
  cases hf : f.tail <;> simp [hf]

/-- The tails of a list are those of its first flit and the rest. -/
theorem tails_cons (f : Flit) (l : List Flit) : tails (f :: l) = tails l + tails [f] := by
  rw [show f :: l = [f] ++ l from rfl, tails_append, add_comm]

/-- A write to a flit that keeps its request and its tail flag. -/
theorem tails_front {f g : Flit} (fs : List Flit) (htail : g.tail = f.tail)
    (hreq : g.req = f.req) : tails (g :: fs) = tails (f :: fs) := by
  rw [tails_cons, tails_cons f, tails_singleton, tails_singleton, htail, hreq]

/-- A packet has one tail. -/
theorem tails_packetFlits (cycle : Counter) (req : NocReq) :
    tails (Router.packetFlits k cycle req) = {req} := by
  obtain ⟨n, hn⟩ : ∃ n, k.numFlit req = n + 1 := ⟨k.numFlit req - 1, by
    have := numFlit_pos (k := k) req
    omega⟩
  have hbody : ∀ m ≤ n, tails ((List.range m).map fun jj =>
      ({ src := req.msgSrc, dst := req.msgDst, dir := none, head := jj == 0,
         tail := jj + 1 == k.numFlit req, req := req, state := .ib, timestamp := cycle,
         rdyCycle := cycle, id := jj } : Flit)) = 0 := by
    intro m hm
    induction m with
    | zero => rfl
    | succ m ih =>
        rw [List.range_succ, List.map_append, tails_append, ih (by omega)]
        have : ¬ m = n := by omega
        simp [tails, hn, this]
  rw [Router.packetFlits, hn, List.range_succ, List.map_append, tails_append]
  rw [hn] at hbody
  rw [hbody n le_rfl]
  simp [tails]

/-! ## The invariant -/

/-- The channels of the network. -/
def channels (k : NocKnobs) : Finset Chan :=
  ((List.range k.numRouter).flatMap fun r => k.ports.flatMap fun p =>
    k.vcs.map fun v => (⟨r, p, v⟩ : Chan)).toFinset

/-- The channels are listed completely. -/
theorem mem_channels_iff {c : Chan} : c ∈ channels k ↔ k.Valid c := by
  obtain ⟨r, p, v⟩ := c
  simp [channels, NocKnobs.Valid, NocKnobs.vcs]

/-- The requests of a per-router list, over all routers. -/
def total (k : NocKnobs) (t : ℕ → List NocReq) : Multiset NocReq :=
  ∑ r ∈ Finset.range k.numRouter, (t r : Multiset NocReq)

/-- The requests whose tail is in a buffer. -/
def inFlight (k : NocKnobs) (F : Fabric) : Multiset NocReq :=
  (∑ c ∈ channels k, tails (F.inp c)) + ∑ c ∈ channels k, tails (F.out c)

/-- No request is lost or duplicated, and the delivered ones are those whose tail has left. -/
structure DeliveryInv (k : NocKnobs) (F : Fabric) : Prop where
  accepted_eq : total k F.accepted = total k F.waiting + inFlight k F + total k F.delivered
  delivered_eq : ∀ r < k.numRouter, (F.delivered r : Multiset NocReq) =
    ∑ v ∈ Finset.range k.numVc, tails (F.released r v)

/-- In the empty fabric everything is accounted for. -/
theorem deliveryInv_empty : DeliveryInv k Fabric.empty :=
  ⟨by simp [total, inFlight, Fabric.empty, tails], fun r _ => by simp [Fabric.empty, tails]⟩

section Steps

variable {F G : Fabric} {i c d : Chan} {f g : Flit} {fs : List Flit}

/-- A link leads to a channel of the network. -/
theorem valid_down (hc : k.Valid c) (hd : k.down c = some d) : k.Valid d := by
  have hlt := (down_symm hc.1 hd).1
  simp only [NocKnobs.down, Option.map_eq_some_iff] at hd
  obtain ⟨q, hq, rfl⟩ := hd
  have hopp : ∀ p ∈ k.ports, p.opposite ∈ k.ports := by
    unfold NocKnobs.ports
    cases k.topology <;> simp [Port.opposite]
  exact ⟨hlt, hopp _ hc.2.1, hc.2.2⟩

/-- The output channel that an input channel names exists. -/
theorem FabricInv.valid_of_names (hF : FabricInv k F) (hn : F.Names i c) : k.Valid c := by
  obtain ⟨-, -, w, hW⟩ := hF
  cases ho : w.owner c with
  | none =>
      have := ((hW.out_ok c).free ho).2.2
      rw [(hW.src_iff c i).mpr hn] at this
      cases this
  | some q => exact (hW.leads c q ho).1

/-- One more request in a table is one more in the total. -/
theorem total_push {t : ℕ → List NocReq} {r : ℕ} (req : NocReq) (hr : r < k.numRouter) :
    total k (Function.update t r (t r ++ [req])) = total k t + {req} :=
  sum_update_add (fun l : List NocReq => (l : Multiset NocReq)) (Finset.mem_range.mpr hr)
    (by rw [← Multiset.coe_add]; rfl)

/-- One request less in a table is one less in the total. -/
theorem total_pop {t : ℕ → List NocReq} {r : ℕ} {req : NocReq} {rest : List NocReq}
    (hr : r < k.numRouter) (h : t r = req :: rest) :
    total k t = total k (Function.update t r rest) + {req} :=
  sum_update_sub (fun l : List NocReq => (l : Multiset NocReq)) (Finset.mem_range.mpr hr)
    (by rw [h, ← Multiset.cons_coe, ← Multiset.singleton_add, add_comm])

/-- Flits that are pushed add their tails to the sum. -/
theorem sum_tails_push {t : Chan → List Flit} (l : List Flit) (hc : k.Valid c) :
    ∑ x ∈ channels k, tails (Function.update t c (t c ++ l) x) =
      ∑ x ∈ channels k, tails (t x) + tails l :=
  sum_update_add tails (mem_channels_iff.mpr hc) (tails_append _ _)

/-- A flit that is popped takes its tail from the sum. -/
theorem sum_tails_pop {t : Chan → List Flit} (hc : k.Valid c) (h : t c = f :: fs) :
    ∑ x ∈ channels k, tails (t x) =
      ∑ x ∈ channels k, tails (Function.update t c fs x) + tails [f] :=
  sum_update_sub tails (mem_channels_iff.mpr hc) (by rw [h, tails_cons])

/-- A change of the pipeline state of a front flit moves no tail. -/
theorem sum_tails_front {t : Chan → List Flit} (hi : k.Valid i) (h : t i = f :: fs)
    (htail : g.tail = f.tail) (hreq : g.req = f.req) :
    ∑ x ∈ channels k, tails (Function.update t i (g :: fs) x) = ∑ x ∈ channels k, tails (t x) := by
  have := sum_update_add (t := t) (z := 0) tails (mem_channels_iff.mpr hi)
    (x := g :: fs) (by rw [h, tails_front fs htail hreq, add_zero])
  rwa [add_zero] at this

/-- The state of a flit does not change its tail. -/
theorem tails_restate (f : Flit) (s : FlitState) (rdy : Counter) :
    tails [{ f with state := s, rdyCycle := rdy }] = tails [f] := tails_front [] rfl rfl

/-- Moves that keep the requests outside the buffers and the requests in flight. -/
theorem DeliveryInv.of_same (hD : DeliveryInv k F) (hacc : G.accepted = F.accepted)
    (hwait : G.waiting = F.waiting) (hfl : inFlight k G = inFlight k F)
    (hdel : G.delivered = F.delivered) (hrel : G.released = F.released) : DeliveryInv k G := by
  refine ⟨?_, ?_⟩
  · rw [hacc, hwait, hfl, hdel]
    exact hD.accepted_eq
  · rw [hdel, hrel]
    exact hD.delivered_eq

/-- A flit crosses a switch. -/
theorem inFlight_cross (hi : k.Valid i) (hc : k.Valid c) (hb : F.inp i = f :: fs)
    (hinp : G.inp = Function.update F.inp i fs)
    (hout : G.out = Function.update F.out c (F.out c ++ [{ f with state := .st }])) :
    inFlight k G = inFlight k F := by
  rw [inFlight, inFlight, hinp, hout, sum_tails_push _ hc, sum_tails_pop hi hb,
    tails_restate f .st f.rdyCycle]
  abel

/-- A flit crosses a link. -/
theorem inFlight_forward {rdy : Counter} (hc : k.Valid c) (hd : k.Valid d)
    (hb : F.out c = f :: fs)
    (hinp : G.inp = Function.update F.inp d
      (F.inp d ++ [{ f with state := .ib, rdyCycle := rdy }]))
    (hout : G.out = Function.update F.out c fs) : inFlight k G = inFlight k F := by
  rw [inFlight, inFlight, hinp, hout, sum_tails_push _ hd, sum_tails_pop hc hb, tails_restate]
  abel

/-- A flit leaves through a local port. -/
theorem DeliveryInv.eject (hD : DeliveryInv k F) (hc : k.Valid c) (hb : F.out c = f :: fs)
    (hacc : G.accepted = F.accepted) (hwait : G.waiting = F.waiting) (hinp : G.inp = F.inp)
    (hout : G.out = Function.update F.out c fs)
    (hdel : G.delivered = if f.tail then
      Function.update F.delivered c.r (F.delivered c.r ++ [f.req]) else F.delivered)
    (hrel : G.released = upd F.released c.r c.v (F.released c.r c.v ++ [f])) :
    DeliveryInv k G := by
  have hold := hD.accepted_eq
  have hdelivered : total k G.delivered = total k F.delivered + tails [f] := by
    rw [hdel, tails_singleton]
    split
    · exact total_push _ hc.1
    · rw [add_zero]
  refine ⟨?_, fun r hr => ?_⟩
  · rw [hacc, hwait, hdelivered, hold, inFlight, inFlight, hinp, hout, sum_tails_pop hc hb]
    abel
  · have hlog := hD.delivered_eq r hr
    by_cases hrc : r = c.r
    · subst hrc
      have hsum : ∑ v ∈ Finset.range k.numVc, tails (G.released c.r v) =
          ∑ v ∈ Finset.range k.numVc, tails (F.released c.r v) + tails [f] := by
        have hrow : G.released c.r = Function.update (F.released c.r) c.v
            (F.released c.r c.v ++ [f]) := by
          funext v
          simp [hrel, upd_apply, Function.update_apply]
        rw [hrow]
        exact sum_update_add tails (Finset.mem_range.mpr hc.2.2) (tails_append _ _)
      rw [hsum, ← hlog, hdel, tails_singleton]
      split
      · rw [Function.update_self, ← Multiset.coe_add]
        rfl
      · rw [add_zero]
    · have hrow : G.released r = F.released r := by
        funext v
        simp [hrel, upd_apply, hrc]
      rw [hrow, ← hlog, hdel]
      split
      · rw [Function.update_of_ne hrc]
      · rfl

end Steps

/-- Every move of the fabric keeps the accounts. -/
theorem DeliveryInv.step {F G : Fabric} (hF : FabricInv k F) (hD : DeliveryInv k F)
    (hs : F.Step k G) : DeliveryInv k G := by
  cases hs with
  | accept r req hr hdst =>
      refine ⟨?_, hD.delivered_eq⟩
      have hfl : inFlight k { F with
          waiting := Function.update F.waiting r (F.waiting r ++ [req])
          accepted := Function.update F.accepted r (F.accepted r ++ [req]) } = inFlight k F := rfl
      simp only [hfl, total_push req hr, hD.accepted_eq]
      abel
  | inject c req rest cycle hc hp hw =>
      refine ⟨?_, hD.delivered_eq⟩
      simp only [inFlight, sum_tails_push _ hc, tails_packetFlits, hD.accepted_eq,
        total_pop hc.1 hw]
      abel
  | computeRoute i f fs enabled dir hi hb hst hroute hdir hhead hring =>
      refine hD.of_same rfl rfl ?_ rfl rfl
      simp only [inFlight]
      rw [sum_tails_front (g := { f with state := .rc, dir := dir }) hi hb rfl rfl]
  | grantVc i c f fs hi hc hr hb hst hroute havail =>
      refine hD.of_same rfl rfl ?_ rfl rfl
      simp only [inFlight]
      rw [sum_tails_front (g := { f with state := .vca }) hi hb rfl rfl]
  | grantSwitch i f fs hi hb hst =>
      refine hD.of_same rfl rfl ?_ rfl rfl
      simp only [inFlight]
      rw [sum_tails_front (g := { f with state := .sa }) hi hb rfl rfl]
  | crossLocal i c f fs hi hn hb hst hp =>
      exact hD.of_same rfl rfl (inFlight_cross hi (hF.valid_of_names hn) hb rfl rfl) rfl rfl
  | cross i c u f fs rdy hi hn hb hst hp hu =>
      exact hD.of_same rfl rfl (inFlight_cross hi (hF.valid_of_names hn) hb rfl rfl) rfl rfl
  | eject c f fs hc hb hp => exact hD.eject hc hb rfl rfl rfl rfl rfl rfl
  | forward c d f fs rdy hc hb hp hd hcr =>
      exact hD.of_same rfl rfl (inFlight_forward hc (valid_down hc hd) hb rfl rfl) rfl rfl
  | creditBack r kept rest cr hr hb => exact hD.of_same rfl rfl rfl rfl rfl

/-- The invariants of the fabric with the accounts. -/
def AccountInv (k : NocKnobs) (F : Fabric) : Prop := FabricInv k F ∧ DeliveryInv k F

/-- Everything is accounted for in every reachable network. -/
theorem accountInv_reachable {net : Network} (h : net.Reachable k) :
    AccountInv k (net.fabric k) := by
  refine reachable_invariant ⟨fabricInv_empty, deliveryInv_empty⟩ ?_ h
  intro F G hF hs
  exact ⟨hF.1.step hs, DeliveryInv.step hF.1 hF.2 hs⟩

/-! ## What the accounts say about a network -/

/-- The requests whose tail is in an input or an output buffer of the network. -/
def requestsInFlight (k : NocKnobs) (net : Network) : Multiset NocReq :=
  (∑ c ∈ channels k, tails ((net.router c.r).inputBuffer c.p c.v)) +
    ∑ c ∈ channels k, tails ((net.router c.r).outputBuffer c.p c.v)

/-- A released log as whole packets, one for each of its tails, and an incomplete one. -/
theorem FabricInv.released {F : Fabric} (hF : FabricInv k F) (r v : ℕ) :
    ∃ (packets : List NocReq) (cursor : Option (NocReq × ℕ)),
      tails (F.released r v) = packets ∧
      (F.released r v).map key = packets.flatMap (pieces k.numFlit) ++ started cursor ∧
      ∀ x, cursor = some x → x.2 + 1 ≠ k.numFlit x.1 := by
  obtain ⟨hL, hC, w, hW⟩ := hF
  have hstream := hW.localStream ⟨r, .loc, v⟩ rfl
  rw [List.map_append] at hstream
  obtain ⟨cursor, hacc, -⟩ := accepts_append.mp hstream
  obtain ⟨hsplit, hopen⟩ := hacc.decompose
  refine ⟨_, cursor, ?_, hsplit, hopen⟩
  rw [tails, Multiset.coe_eq_coe, List.filter_map, List.map_map]
  refine List.Perm.of_eq ?_
  -- the tail flag and the last number of a packet are the same test
  have htest : (F.released r v).filter (·.tail) = (F.released r v).filter
      ((fun x : NocReq × ℕ => decide (x.2 + 1 = k.numFlit x.1)) ∘ key) := by
    refine List.filter_congr fun f hf => ?_
    have := (hL.released r v f hf).tail_iff
    change f.tail = decide ((key f).2 + 1 = k.numFlit (key f).1)
    rw [Bool.eq_iff_iff, decide_eq_true_iff]
    exact this
  rw [htest]
  rfl

/-- Exactly-once delivery.  In every reachable network the accepted requests are the waiting
ones, those in flight and the delivered ones, each counted once; a delivered request is at its
destination; and the flits that have left at a router are, per virtual channel, whole packets
with their flits in order and one incomplete packet after them, the delivered requests being
those of the whole packets. -/
theorem exactly_once_delivery (k : NocKnobs) (net : Network) (h : net.Reachable k) :
    (total k (fun r => (net.router r).accepted) =
      total k (fun r => (net.router r).injectionBuffer) + requestsInFlight k net +
        total k (fun r => (net.router r).received ++ (net.router r).reqBuffer)) ∧
    ∀ r < k.numRouter,
      (∀ req ∈ (net.router r).received ++ (net.router r).reqBuffer, req.msgDst = r) ∧
      ∃ packets : ℕ → List NocReq,
        (((net.router r).received ++ (net.router r).reqBuffer : List NocReq) : Multiset NocReq) =
          ∑ v ∈ Finset.range k.numVc, (packets v : Multiset NocReq) ∧
        ∀ v, ∃ cursor : Option (NocReq × ℕ),
          ((net.router r).released v).map (fun f => (f.req, f.id)) =
            (packets v).flatMap (pieces k.numFlit) ++ started cursor ∧
          ∀ x, cursor = some x → x.2 + 1 ≠ k.numFlit x.1 := by
  obtain ⟨hF, hD⟩ := accountInv_reachable h
  refine ⟨hD.accepted_eq, fun r hr => ?_⟩
  have hlog : (((net.router r).received ++ (net.router r).reqBuffer : List NocReq) :
      Multiset NocReq) = ∑ v ∈ Finset.range k.numVc, tails ((net.router r).released v) :=
    hD.delivered_eq r hr
  refine ⟨fun req hreq => ?_, ?_⟩
  · -- a delivered request is that of a flit that has left at the router
    rw [← Multiset.mem_coe, hlog, Multiset.mem_sum] at hreq
    obtain ⟨v, -, hv⟩ := hreq
    simp only [tails, Multiset.mem_coe, List.mem_map, List.mem_filter] at hv
    obtain ⟨f, ⟨hf, -⟩, rfl⟩ := hv
    obtain ⟨-, -, w, hW⟩ := hF
    exact hW.home r v f hf
  · choose packets cursor htails hmap hopen using fun v => hF.released r v
    refine ⟨packets, ?_, fun v => ⟨cursor v, hmap v, hopen v⟩⟩
    rw [hlog]
    exact Finset.sum_congr rfl fun v _ => htails v

/-- The request of the ring comes out at router `1`, its destination, with nothing left in
flight. -/
theorem exactly_once_delivery_twoRing : ∃ net, Network.Reachable twoRing net ∧
    (net.router 1).reqBuffer = [ackReq] ∧
    (∀ req ∈ (net.router 1).received ++ (net.router 1).reqBuffer, req.msgDst = 1) ∧
    total twoRing (fun r => (net.router r).accepted) =
      total twoRing (fun r => (net.router r).injectionBuffer) + requestsInFlight twoRing net +
        total twoRing (fun r => (net.router r).received ++ (net.router r).reqBuffer) := by
  have hrun : (afterSend.ticks twoRing [(0, 0), (0, 1), (0, 2), (0, 3), (1, 4), (1, 5), (1, 6),
      (1, 7), (1, 8), (1, 9), (1, 10), (1, 11)]).toOption.map
        (fun net => (net.router 1).reqBuffer) = some [ackReq] := by decide +kernel
  obtain ⟨net, hnet, hbuf⟩ := exists_ok_of_observed hrun
  have hreach := afterSend_reachable.ticks (by decide) hnet
  obtain ⟨hpart, hat⟩ := exactly_once_delivery twoRing net hreach
  exact ⟨net, hreach, hbuf, (hat 1 (by decide)).1, hpart⟩

end MacSim.Analysis
