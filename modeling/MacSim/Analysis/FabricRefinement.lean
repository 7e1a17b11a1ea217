import MacSim.Computation.Traces
import MacSim.Model.Fabric

/-!
# A tick of a router is a sequence of fabric moves

Every stage of `router_c::run_a_cycle` walks over ports and channels and performs at most one
action at each place.  The action lemmas say which move of the fabric an action is, the stage
lemmas lift them through the loops, and `runACycle_traces` puts the stages together.  Whatever
holds of every reachable fabric therefore holds of every reachable network
(`reachable_fabric`), and a tick faults only where the fabric has a reason to
(`runACycle_traces` again).
-/

set_option autoImplicit false

namespace MacSim.Analysis

open MacSim.Model MacSim.Computation Relation

variable {k : NocKnobs}

/-! ## Reading a network after a change of one router -/

section Tables

variable {α : Type} {net : Network} {r : ℕ} {f : Router → Router}

/-- A modification is seen at its own router only. -/
theorem modify_router (net : Network) (r x : ℕ) (f : Router → Router) :
    (net.modify r f).router x = if x = r then f (net.router r) else net.router x := by
  simp [Network.modify, Function.update_apply]

/-- The modified router is the old one with the modification applied. -/
@[simp] theorem modify_router_same (net : Network) (r : ℕ) (f : Router → Router) :
    (net.modify r f).router r = f (net.router r) := by
  simp [modify_router]

/-- Two modifications of one router are one. -/
@[simp] theorem modify_modify (net : Network) (r : ℕ) (f g : Router → Router) :
    (net.modify r f).modify r g = net.modify r (fun rt => g (f rt)) := by
  simp [Network.modify]

/-- Writing back what is there changes nothing. -/
theorem modify_eq_self (h : f (net.router r) = net.router r) : net.modify r f = net := by
  simp [Network.modify, h]

/-- An array that the change rewrites at one place. -/
theorem table_modify_upd (g : Router → Port → ℕ → α) {p : Port} {v : ℕ} {x : α}
    (h : g (f (net.router r)) = upd (g (net.router r)) p v x) :
    (net.modify r f).table g = Function.update (net.table g) ⟨r, p, v⟩ x := by
  funext c
  obtain ⟨cr, cp, cv⟩ := c
  by_cases hr : cr = r
  · subst hr
    simp [Network.table, h, upd_apply, Function.update_apply]
  · simp [Network.table, modify_router, hr]

/-- An array that the change leaves alone. -/
theorem table_modify_same (g : Router → Port → ℕ → α)
    (h : g (f (net.router r)) = g (net.router r)) : (net.modify r f).table g = net.table g := by
  funext c
  simp only [Network.table, modify_router]
  split
  · simp_all
  · rfl

/-- A per-router value that the change rewrites. -/
theorem field_modify_upd (g : Router → α) {x : α} (h : g (f (net.router r)) = x) :
    (net.modify r f).field g = Function.update (net.field g) r x := by
  funext y
  simp only [Network.field, modify_router, Function.update_apply]
  split <;> simp_all

/-- A per-router value that the change leaves alone. -/
theorem field_modify_same (g : Router → α) (h : g (f (net.router r)) = g (net.router r)) :
    (net.modify r f).field g = net.field g := by
  rw [field_modify_upd g h]
  simp [Network.field]

/-- Equality of fabrics, field by field. -/
theorem fabric_eq {F : Fabric} (inp : net.table Router.inputBuffer = F.inp)
    (out : net.table Router.outputBuffer = F.out)
    (outPort : net.table Router.outputPortId = F.outPort)
    (outVc : net.table Router.outputVcId = F.outVc)
    (avail : net.table Router.outputVcAvail = F.avail)
    (route : net.table (Router.usableRoute k) = F.route)
    (credit : net.table Router.credit = F.credit)
    (pending : net.field Router.pendingCredit = F.pending)
    (waiting : net.field Router.injectionBuffer = F.waiting)
    (delivered : net.field Router.delivered = F.delivered)
    (accepted : net.field Router.accepted = F.accepted)
    (released : net.field Router.released = F.released) : net.fabric k = F :=
  Fabric.ext inp out outPort outVc avail route credit pending waiting delivered accepted released

end Tables

/-! ## Moves of a network -/

/-- The fabric of the second network is reached from that of the first. -/
def Moves (k : NocKnobs) (a b : Network) : Prop :=
  ReflTransGen (Fabric.Step k) (a.fabric k) (b.fabric k)

/-- The same for a change of the router `r` alone. -/
def MovesAt (k : NocKnobs) (r : ℕ) (rt rt' : Router) : Prop :=
  ∀ net : Network, net.router r = rt → Moves k net (net.modify r fun _ => rt')

/-- The fabric of the network has a reason for the fault. -/
def FabricFaults (k : NocKnobs) (net : Network) (e : Fault) : Prop := (net.fabric k).FaultAt k e

/-- The same for a network whose router `r` is `rt`. -/
def FaultsAt (k : NocKnobs) (r : ℕ) (rt : Router) (e : Fault) : Prop :=
  ∀ net : Network, net.router r = rt → FabricFaults k net e

instance : Std.Refl (Moves k) := ⟨fun _ => .refl⟩

instance : IsTrans Network (Moves k) := ⟨fun _ _ _ => .trans⟩

instance (r : ℕ) : Std.Refl (MovesAt k r) :=
  ⟨fun rt net h => by rw [modify_eq_self h.symm]; exact .refl⟩

instance (r : ℕ) : IsTrans Router (MovesAt k r) :=
  ⟨fun a b c hab hbc net h => by
    have h2 := hbc (net.modify r fun _ => b) (by simp)
    rw [modify_modify] at h2
    exact trans_of (Moves k) (hab net h) h2⟩

/-- A change that the fabric does not see. -/
theorem moves_of_fabric_eq {a b : Network} (h : b.fabric k = a.fabric k) : Moves k a b := by
  rw [Moves, h]

/-- A change that is one move of the fabric. -/
theorem moves_of_step {a b : Network} {F : Fabric} (h : b.fabric k = F)
    (hs : (a.fabric k).Step k F) : Moves k a b := by
  rw [Moves, h]
  exact .single hs

/-- A stage on one router as a change of the network. -/
theorem MovesAt.modify {r : ℕ} {f : Router → Router} (net : Network)
    (h : ∀ rt, MovesAt k r rt (f rt)) : Moves k net (net.modify r f) :=
  h _ net rfl

/-! ## Actions on one router -/

section Actions

variable {r : ℕ} {rt : Router} {p ip op : Port} {v iv ov : ℕ} {f : Flit} {fs : List Flit}

/-- The front of a channel is the head of its buffer. -/
theorem front_eq_some : rt.front p v = some f ↔ ∃ fs, rt.inputBuffer p v = f :: fs := by
  rw [Router.front]
  cases rt.inputBuffer p v <;> simp

/-- The buffers after a write to a front flit. -/
theorem inputBuffer_modifyFront (g : Flit → Flit) (h : rt.inputBuffer p v = f :: fs) :
    (rt.modifyFront p v g).inputBuffer = upd rt.inputBuffer p v (g f :: fs) := by
  simp [Router.modifyFront, h]

/-- Returning a credit is a move of the fabric. -/
theorem creditBack_moves {kept rest : List Credit} {c : Credit} (hr : r < k.numRouter)
    (h : rt.pendingCredit = kept ++ c :: rest) :
    MovesAt k r rt (rt.creditBack c (kept ++ rest)) := by
  rintro net rfl
  refine moves_of_step ?_ (.creditBack (net.fabric k) r kept rest c hr h)
  apply fabric_eq
  case credit => exact table_modify_upd _ rfl
  case pending => exact field_modify_upd _ rfl
  all_goals first | exact table_modify_same _ rfl | exact field_modify_same _ rfl

/-- Granting the switch is a move of the fabric. -/
theorem switchGrant_moves (hi : k.Valid ⟨r, ip, iv⟩) (hb : rt.inputBuffer ip iv = f :: fs)
    (hst : f.head = true ∧ f.state = .vca ∨ f.head = false ∧ f.state = .ib) :
    MovesAt k r rt (rt.switchGrant op ip iv) := by
  rintro net rfl
  refine moves_of_step ?_ (.grantSwitch (net.fabric k) ⟨r, ip, iv⟩ f fs hi hb hst)
  apply fabric_eq
  case inp => exact table_modify_upd _ (inputBuffer_modifyFront _ hb)
  all_goals first | exact table_modify_same _ rfl | exact field_modify_same _ rfl

/-- Granting a virtual channel is a move of the fabric. -/
theorem vcGrant_moves (hi : k.Valid ⟨r, ip, iv⟩) (hc : k.Valid ⟨r, op, ov⟩)
    (hb : rt.inputBuffer ip iv = f :: fs) (hst : f.state = .rc)
    (hroute : rt.usableRoute k ip iv op = true) (havail : rt.outputVcAvail op ov = true) :
    MovesAt k r rt (rt.vcGrant op ov ip iv) := by
  rintro net rfl
  refine moves_of_step ?_ (.grantVc (net.fabric k) ⟨r, ip, iv⟩ ⟨r, op, ov⟩ f fs hi hc rfl hb hst
    hroute havail)
  apply fabric_eq
  case inp => exact table_modify_upd _ (inputBuffer_modifyFront _ hb)
  case outPort => exact table_modify_upd _ rfl
  case outVc => exact table_modify_upd _ rfl
  case avail => exact table_modify_upd _ rfl
  all_goals first | exact table_modify_same _ rfl | exact field_modify_same _ rfl

/-- The usable routes after `routeCompute`. -/
theorem usableRoute_routeCompute (enabled : Fin 2 → Port → Bool) (dir : Option Port) :
    (rt.routeCompute p v enabled dir).usableRoute k = upd (rt.usableRoute k) p v
      (fun q => match k.topology with
        | .ring => enabled 0 q
        | .mesh => enabled 0 q || enabled 1 q) := by
  funext p' v' q
  unfold Router.usableRoute
  cases k.topology <;> simp only [Router.routeCompute, Router.modifyFront, upd_apply] <;>
    split <;> rfl

/-- Computing a route is a move of the fabric, when the route leads to the destination. -/
theorem routeCompute_moves {enabled : Fin 2 → Port → Bool} {dir : Option Port}
    (hi : k.Valid ⟨r, p, v⟩) (hb : rt.inputBuffer p v = f :: fs) (hst : f.state = .ib)
    (hhead : f.head = true) (hdir : k.Legal f → NocKnobs.LegalDir dir)
    (hroute : k.Legal f → ∀ q, (match k.topology with
        | .ring => enabled 0 q
        | .mesh => enabled 0 q || enabled 1 q) = true → k.Leads r f.dst q)
    (hring : k.Legal f → k.topology = .ring → NocKnobs.RingRouted r f (enabled 0) dir) :
    MovesAt k r rt (rt.routeCompute p v enabled dir) := by
  rintro net rfl
  refine moves_of_step ?_
    (.computeRoute (net.fabric k) ⟨r, p, v⟩ f fs _ dir hi hb hst hroute hdir hhead ?_)
  case refine_2 =>
    intro hf ht
    simp only [ht]
    exact hring hf ht
  apply fabric_eq
  case inp => exact table_modify_upd _ (inputBuffer_modifyFront _ hb)
  case route => exact table_modify_upd _ (usableRoute_routeCompute enabled dir)
  all_goals first | exact table_modify_same _ rfl | exact field_modify_same _ rfl

/-- Injecting a packet is a move of the fabric. -/
theorem injectPacket_moves {req : NocReq} {rest : List NocReq} (hc : k.Valid ⟨r, .loc, v⟩)
    (hw : rt.injectionBuffer = req :: rest) :
    MovesAt k r rt (rt.injectPacket k req rest v) := by
  rintro net rfl
  refine moves_of_step ?_
    (.inject (net.fabric k) ⟨r, .loc, v⟩ req rest (net.router r).cycle hc rfl hw)
  apply fabric_eq
  case inp => exact table_modify_upd _ rfl
  case waiting => exact field_modify_upd _ rfl
  all_goals first | exact table_modify_same _ rfl | exact field_modify_same _ rfl

end Actions

/-! ## The routes that route computation enables -/

/-- A mesh has as many routers as its square has places. -/
theorem mesh_numRouter (h : k.topology = .mesh) : k.numRouter = k.width * k.width := by
  have hsq : ∃ m, k.numRouter = m * m := by
    unfold NocKnobs.numRouter
    rw [h]
    by_cases hn : Nat.sqrt k.numNode * Nat.sqrt k.numNode = k.numNode
    · exact ⟨Nat.sqrt k.numNode, by rw [if_pos hn]; exact hn.symm⟩
    · exact ⟨Nat.sqrt k.numNode + 1, by rw [if_neg hn]⟩
  obtain ⟨m, hm⟩ := hsq
  rw [NocKnobs.width, hm, Nat.sqrt_eq]

/-- The route of the ring leads to the destination and goes one way round. -/
theorem ringRoute_leads {r : ℕ} {rt : Router} {p : Port} {v : ℕ} {f : Flit}
    (ht : k.topology = .ring) (hf : k.Legal f) :
    NocKnobs.LegalDir (Router.ringRoute k r rt p v f).2 ∧
      ∀ q, (Router.ringRoute k r rt p v f).1 0 q = true → k.Leads r f.dst q := by
  have side (d : Port) (hd : d = .left ∨ d = .right) (q : Port) (hq : q = d) :
      k.Leads r f.dst q := by
    subst hq
    refine .inr ?_
    rcases hd with rfl | rfl <;> simp [NocKnobs.ports, NocKnobs.link, ht]
  unfold Router.ringRoute
  by_cases hdst : f.dst = r
  · simp only [hdst, if_true, decide_eq_true_eq]
    exact ⟨hf.dir_legal, fun q hq => .inl ⟨hq, rfl⟩⟩
  · simp only [hdst, if_false]
    cases hdir : f.dir with
    | some d =>
        have hd := hf.dir_legal d hdir
        refine ⟨fun d' hd' => ?_, fun q hq => side d hd q (by simpa using hq)⟩
        simp_all
    | none =>
        dsimp only
        generalize (if r > f.dst then (r : ℤ) - f.dst else (r : ℤ) - f.dst + k.numRouter) = left
        generalize (if r > f.dst then (f.dst : ℤ) - r + k.numRouter else (f.dst : ℤ) - r) = right
        split
        · exact ⟨fun d hd => by simp_all, fun q hq => side .left (.inl rfl) q (by simpa using hq)⟩
        · exact ⟨fun d hd => by simp_all,
            fun q hq => side .right (.inr rfl) q (by simpa using hq)⟩

/-- The ring opens one port. -/
theorem ringRoute_routed {r : ℕ} {rt : Router} {p : Port} {v : ℕ} {f : Flit} (hf : k.Legal f) :
    NocKnobs.RingRouted r f ((Router.ringRoute k r rt p v f).1 0)
      (Router.ringRoute k r rt p v f).2 := by
  unfold Router.ringRoute
  by_cases hdst : f.dst = r
  · simp only [hdst, if_true]
    exact ⟨.loc, by simp, .inl ⟨hdst, rfl, rfl⟩⟩
  · simp only [hdst, if_false]
    cases hdir : f.dir with
    | some d =>
        refine ⟨d, by simp, .inr ⟨hdst, ?_, rfl, ?_⟩⟩
        · rcases hf.dir_legal d hdir with rfl | rfl <;> decide
        · intro d' hd'
          rw [hdir] at hd'
          exact (Option.some_inj.mp hd').symm
    | none =>
        dsimp only
        generalize (if r > f.dst then (r : ℤ) - f.dst else (r : ℤ) - f.dst + k.numRouter) = left
        generalize (if r > f.dst then (f.dst : ℤ) - r + k.numRouter else (f.dst : ℤ) - r) = right
        split
        · exact ⟨.left, by simp, .inr ⟨hdst, by decide, rfl, fun d hd => by simp_all⟩⟩
        · exact ⟨.right, by simp, .inr ⟨hdst, by decide, rfl, fun d hd => by simp_all⟩⟩

/-- Every route of the mesh leads to the destination. -/
theorem meshRoute_leads {r : ℕ} {f : Flit} (ht : k.topology = .mesh) (hr : r < k.numRouter)
    (hf : k.Legal f) (c : Fin 2) (q : Port) (hq : Router.meshRoute k r f c q = true) :
    k.Leads r f.dst q := by
  have hn := mesh_numRouter ht
  have hw : 0 < k.width := Nat.pos_of_mul_pos_right (hn ▸ Nat.zero_lt_of_lt hr)
  have hx : f.dst % k.width < k.width := Nat.mod_lt _ hw
  have hy : f.dst / k.width < k.width := Nat.div_lt_of_lt_mul (hn ▸ hf.dst_lt)
  unfold Router.meshRoute at hq
  by_cases hdst : f.dst = r
  · simp only [hdst, if_true, decide_eq_true_eq] at hq
    exact .inl ⟨hq, hdst⟩
  · simp only [hdst, if_false] at hq
    refine .inr ?_
    cases q with
    | loc => simp at hq
    | left =>
        have : r % k.width ≠ 0 := by simp at hq; omega
        simp [NocKnobs.ports, NocKnobs.link, ht, this]
    | right =>
        have : r % k.width ≠ k.width - 1 := by simp at hq; omega
        simp [NocKnobs.ports, NocKnobs.link, ht, this]
    | up =>
        have : 0 < r / k.width := by
          simp only [gt_iff_lt, decide_eq_true_eq] at hq
          exact Nat.zero_lt_of_lt hq.1
        simp only [NocKnobs.ports, NocKnobs.link, ht, this]
        simp
    | down =>
        have : r / k.width < k.width - 1 := by simp at hq; omega
        simp [NocKnobs.ports, NocKnobs.link, ht, this]

/-! ## Stages on one router -/

section Stages

variable {r : ℕ} {rt : Router}

/-- The credit loop makes moves of the fabric. -/
theorem creditLoop_moves (hr : r < k.numRouter) (now : Counter) (l kept : List Credit)
    (h : rt.pendingCredit = kept ++ l) : MovesAt k r rt (Router.creditLoop now kept l rt) := by
  induction l generalizing rt kept with
  | nil => exact refl_of (MovesAt k r) rt
  | cons c rest ih =>
      unfold Router.creditLoop
      split
      · exact trans_of (MovesAt k r) (creditBack_moves hr h) (ih _ rfl)
      · exact ih _ (by simp [h])

/-- The winner of an arbitration is one of the eligible candidates. -/
theorem pickOldest_eligible {eligible : Port → ℕ → Option Flit} {cands : List (Port × ℕ)}
    {w : Port × ℕ} (h : Router.pickOldest eligible cands = some w) :
    w ∈ cands ∧ ∃ f, eligible w.1 w.2 = some f := by
  -- the loop is followed from any intermediate best, which is eligible if there is one
  have loop (l : List (Port × ℕ)) (hl : ∀ c ∈ l, c ∈ cands) (best : Counter × Option (Port × ℕ))
      (hb : ∀ w, best.2 = some w → w ∈ cands ∧ ∃ f, eligible w.1 w.2 = some f) (w : Port × ℕ)
      (hw : (l.foldl (fun (best : Counter × Option (Port × ℕ)) c =>
        (eligible c.1 c.2).elim best fun f =>
          if f.timestamp < best.1 then (f.timestamp, some c) else best) best).2 = some w) : w ∈ cands ∧ ∃ f, eligible w.1 w.2 = some f := by
    induction l generalizing best with
    | nil => exact hb w hw
    | cons c l ih =>
        refine ih (fun x hx => hl x (by simp [hx])) _ ?_ hw
        intro w' hw'
        cases hc : eligible c.1 c.2 with
        | none => exact hb w' (by simpa [hc] using hw')
        | some f =>
            simp only [hc, Option.elim_some] at hw'
            split at hw'
            · cases hw'
              exact ⟨hl c (by simp), f, hc⟩
            · exact hb w' hw'
  refine loop cands (fun _ => id) (BitVec.allOnes 64, none) (by simp) w ?_
  rw [← h]
  unfold Router.pickOldest
  refine congrArg Prod.snd (List.foldl_ext _ _ _ fun best c _ => ?_)
  cases eligible c.1 c.2 <;> rfl

/-- A candidate of the switch is a channel of the router. -/
theorem mem_candidates {op : Port} {w : Port × ℕ} (h : w ∈ Router.candidates k op) :
    w.1 ∈ k.ports ∧ w.2 < k.numVc := by
  obtain ⟨p, v⟩ := w
  simp only [Router.candidates, NocKnobs.vcs, List.mem_flatMap, List.mem_filter, List.mem_map,
    List.mem_range, Prod.mk.injEq] at h
  obtain ⟨p', ⟨hp', -⟩, v', hv', rfl, rfl⟩ := h
  exact ⟨hp', hv'⟩

/-- The switch allocation of a port makes moves of the fabric. -/
theorem saPort_moves (hr : r < k.numRouter) (rt : Router) (op : Port) :
    MovesAt k r rt (rt.saPort k op) := by
  unfold Router.saPort
  split
  · cases hw : rt.stageSaPickWinner k op with
    | none => exact refl_of (MovesAt k r) rt
    | some w =>
        obtain ⟨ip, iv⟩ := w
        obtain ⟨hmem, f, hf⟩ := pickOldest_eligible hw
        obtain ⟨hip, hiv⟩ := mem_candidates hmem
        unfold Router.saEligible at hf
        split at hf
        · rw [Option.filter_eq_some_iff, front_eq_some] at hf
          obtain ⟨⟨fs, hb⟩, hst⟩ := hf
          exact switchGrant_moves ⟨hr, hip, hiv⟩ hb (by simpa using hst)
        · cases hf
  · exact refl_of (MovesAt k r) rt

/-- The route computation of a channel makes moves of the fabric. -/
theorem rcChannel_moves {p : Port} {v : ℕ} (hi : k.Valid ⟨r, p, v⟩) (rt : Router) :
    MovesAt k r rt (Router.rcChannel k r rt p v) := by
  unfold Router.rcChannel
  cases hf : rt.front p v with
  | none => exact refl_of (MovesAt k r) rt
  | some f =>
      obtain ⟨fs, hb⟩ := front_eq_some.mp hf
      dsimp only
      split
      · rename_i h
        cases ht : k.topology with
        | ring =>
            dsimp only
            split
            · refine routeCompute_moves hi hb h.2.1 h.1 (fun hl => (ringRoute_leads ht hl).1)
                (fun hl q hq => ?_) fun hl _ => ringRoute_routed hl
              simp only [ht] at hq
              exact (ringRoute_leads ht hl).2 q hq
            · exact refl_of (MovesAt k r) rt
        | mesh =>
            refine routeCompute_moves hi hb h.2.1 h.1 (fun hl => hl.dir_legal)
              (fun hl q hq => ?_) fun _ hring => (nomatch ht.symm.trans hring)
            simp only [ht, Bool.or_eq_true] at hq
            rcases hq with hq | hq <;> exact meshRoute_leads ht hi.1 hl _ q hq
      · exact refl_of (MovesAt k r) rt

/-- The channels that are listed are those of the router. -/
theorem mem_channels {c : Port × ℕ}
    (h : c ∈ k.ports.flatMap fun port => k.vcs.map fun vc => (port, vc)) :
    c.1 ∈ k.ports ∧ c.2 < k.numVc := by
  obtain ⟨p, v⟩ := c
  simp only [NocKnobs.vcs, List.mem_flatMap, List.mem_map, List.mem_range, Prod.mk.injEq] at h
  obtain ⟨p', hp', v', hv', rfl, rfl⟩ := h
  exact ⟨hp', hv'⟩

/-- The stage of route computation makes moves of the fabric. -/
theorem stageRc_moves (hr : r < k.numRouter) (rt : Router) :
    MovesAt k r rt (Router.stageRc k r rt) :=
  moves_foldl (fun rt _ hc => rcChannel_moves ⟨hr, mem_channels hc⟩ rt) rt

/-- The stage of switch allocation makes moves of the fabric. -/
theorem stageSa_moves (hr : r < k.numRouter) (rt : Router) : MovesAt k r rt (rt.stageSa k) :=
  moves_foldl (fun rt op _ => saPort_moves hr rt op) rt

/-- The class that virtual-channel allocation reads is a usable one. -/
theorem usableRoute_of_rcIndex {ov : ℕ} {cls : Fin 2} {p q : Port} {v : ℕ}
    (h : Router.rcIndex k ov = .ok cls) (hroute : rt.route p v cls q = true) :
    rt.usableRoute k p v q = true := by
  unfold Router.usableRoute
  cases ht : k.topology with
  | ring =>
      simp only [Router.rcIndex, ht, Except.ok.injEq] at h
      simpa [h] using hroute
  | mesh =>
      have : cls = 0 ∨ cls = 1 := by omega
      rcases this with rfl | rfl <;> simp [hroute]

/-- The allocation of a virtual channel makes moves of the fabric, or fails as the fabric does. -/
theorem vcaChannel_traces {op : Port} {ov : ℕ} (hc : k.Valid ⟨r, op, ov⟩) (rt : Router) :
    Traces (MovesAt k r) (FaultsAt k r) rt (Router.vcaChannel k r rt op ov) := by
  unfold Router.vcaChannel
  split
  · rename_i havail
    unfold Router.stageVcaPickWinner
    cases hidx : Router.rcIndex k ov with
    | error e =>
        exact ⟨rt, refl_of (MovesAt k r) rt, fun net _ => .rcIndex ov e hc.2.2 hidx⟩
    | ok cls =>
        dsimp only
        split
        · rename_i hw
          simp at hw
        · rename_i ip iv hw
          simp only [Except.ok.injEq] at hw
          obtain ⟨hmem, f, hf⟩ := pickOldest_eligible hw
          obtain ⟨hip, hiv⟩ := mem_candidates hmem
          unfold Router.vcaEligible at hf
          split at hf
          · rename_i hroute
            rw [Option.filter_eq_some_iff, front_eq_some] at hf
            obtain ⟨⟨fs, hb⟩, hst⟩ := hf
            simp only [Bool.and_eq_true, beq_iff_eq] at hst
            exact vcGrant_moves ⟨hc.1, hip, hiv⟩ hc hb hst.2
              (usableRoute_of_rcIndex hidx hroute) havail
          · cases hf
        · exact refl_of (MovesAt k r) rt
  · exact refl_of (MovesAt k r) rt

/-- The stage of channel allocation makes moves of the fabric, or fails as the fabric does. -/
theorem stageVca_traces (hr : r < k.numRouter) (rt : Router) :
    Traces (MovesAt k r) (FaultsAt k r) rt (Router.stageVca k r rt) :=
  Traces.foldlM (fun rt _ hc => vcaChannel_traces ⟨hr, mem_channels hc⟩ rt) rt

/-- The round-robin pointer is not part of the fabric. -/
theorem advanceVc_moves (found : Option ℕ) (rt : Router) :
    MovesAt k r rt (rt.advanceVc k found) := by
  unfold Router.advanceVc
  split
  · split
    · rintro net rfl
      refine moves_of_fabric_eq (fabric_eq ?_ ?_ ?_ ?_ ?_ ?_ ?_ ?_ ?_ ?_ ?_ ?_)
      all_goals first | exact table_modify_same _ rfl | exact field_modify_same _ rfl
    · exact refl_of (MovesAt k r) rt
  · exact refl_of (MovesAt k r) rt

/-- Advancing the injection channel takes no packet out of the injection buffer. -/
theorem injectionBuffer_advanceVc (found : Option ℕ) (rt : Router) :
    (rt.advanceVc k found).injectionBuffer = rt.injectionBuffer := by
  unfold Router.advanceVc
  split
  · split <;> rfl
  · rfl

/-- The injection order lists channels of the router only. -/
theorem mem_injectionOrder {v : ℕ} (h : v ∈ rt.injectionOrder k) : v < k.numVc := by
  unfold Router.injectionOrder NocKnobs.vcs at h
  split at h
  · simp only [List.mem_map, List.mem_range] at h
    obtain ⟨a, ha, rfl⟩ := h
    exact Nat.mod_lt _ (by omega)
  · simpa using h

/-- The injection loop makes moves of the fabric. -/
theorem injectLoop_moves (hr : r < k.numRouter) (l : List NocReq) (rt : Router)
    (h : rt.injectionBuffer = l) : MovesAt k r rt (Router.injectLoop k l rt) := by
  induction l generalizing rt with
  | nil => exact refl_of (MovesAt k r) rt
  | cons req rest ih =>
      unfold Router.injectLoop
      split
      · rename_i v hv
        have hlt := mem_injectionOrder (List.mem_of_find?_eq_some hv)
        have hloc : Port.loc ∈ k.ports := by
          unfold NocKnobs.ports
          cases k.topology <;> simp
        refine trans_of (MovesAt k r) (injectPacket_moves ⟨hr, hloc, hlt⟩ h) ?_
        exact trans_of (MovesAt k r) (advanceVc_moves _ _)
          (ih _ (by rw [injectionBuffer_advanceVc]; rfl))
      · exact advanceVc_moves _ _

end Stages

/-! ## Stages that reach a neighbour -/

section SendFlit

variable (rt : Router) (port : Port) (v : ℕ) (f : Flit)

/-- A flit that is sent leaves the front of its output buffer. -/
@[simp] theorem sendFlit_outputBuffer : (rt.sendFlit port v f).outputBuffer =
    upd rt.outputBuffer port v (rt.outputBuffer port v).tail := by
  unfold Router.sendFlit
  split_ifs <;> rfl

/-- A flit that is sent spends a credit unless it leaves the network. -/
@[simp] theorem sendFlit_credit : (rt.sendFlit port v f).credit =
    if port = .loc then rt.credit else upd rt.credit port v (rt.credit port v - 1) := by
  unfold Router.sendFlit
  split_ifs <;> first | rfl | simp_all

/-- The tail of a packet frees its output channel. -/
@[simp] theorem sendFlit_outputVcAvail : (rt.sendFlit port v f).outputVcAvail =
    if f.tail then upd rt.outputVcAvail port v true else rt.outputVcAvail := by
  unfold Router.sendFlit
  split_ifs <;> rfl

/-- The tail that leaves the network puts its request into the request buffer. -/
@[simp] theorem sendFlit_reqBuffer : (rt.sendFlit port v f).reqBuffer =
    if f.tail ∧ port = .loc then rt.reqBuffer ++ [f.req] else rt.reqBuffer := by
  unfold Router.sendFlit
  split_ifs <;> rfl

/-- A flit that leaves the network is logged at its channel. -/
@[simp] theorem sendFlit_released : (rt.sendFlit port v f).released =
    if port = .loc then Function.update rt.released v (rt.released v ++ [f]) else rt.released := by
  unfold Router.sendFlit
  split_ifs <;> rfl

/-- The fields that `sendFlit` leaves alone. -/
@[simp] theorem sendFlit_frame : (rt.sendFlit port v f).inputBuffer = rt.inputBuffer ∧
    (rt.sendFlit port v f).outputPortId = rt.outputPortId ∧
    (rt.sendFlit port v f).outputVcId = rt.outputVcId ∧
    (rt.sendFlit port v f).route = rt.route ∧
    (rt.sendFlit port v f).pendingCredit = rt.pendingCredit ∧
    (rt.sendFlit port v f).injectionBuffer = rt.injectionBuffer ∧
    (rt.sendFlit port v f).received = rt.received ∧
    (rt.sendFlit port v f).accepted = rt.accepted := by
  unfold Router.sendFlit
  split_ifs <;> exact ⟨rfl, rfl, rfl, rfl, rfl, rfl, rfl, rfl⟩

/-- The tail that leaves the network is logged as a delivery. -/
@[simp] theorem sendFlit_delivered : (rt.sendFlit port v f).delivered =
    if f.tail ∧ port = .loc then rt.delivered ++ [f.req] else rt.delivered := by
  simp only [Router.delivered, sendFlit_frame, sendFlit_reqBuffer]
  split_ifs <;> simp

/-- Sending a flit keeps the usable routes. -/
@[simp] theorem sendFlit_usableRoute :
    (rt.sendFlit port v f).usableRoute k = rt.usableRoute k := by
  funext p w q
  simp [Router.usableRoute]

end SendFlit

section Neighbours

variable {r : ℕ} {net : Network}

/-- What `ltPick` returns is the front of an output buffer with a credit, and it fails only
at a flit that is not in state `ST`. -/
def Picked (k : NocKnobs) (rt : Router) (port : Port) : Except Fault (Option (ℕ × Flit)) → Prop
  | .ok none => True
  | .ok (some (v, f)) =>
      v < k.numVc ∧ rt.credit port v ≠ 0 ∧ ∃ fs, rt.outputBuffer port v = f :: fs
  | .error e => e = .assertSt ∧
      ∃ v < k.numVc, ∃ f fs, rt.outputBuffer port v = f :: fs ∧ f.state ≠ .st

/-- The link traversal picks a channel of the port that has a flit to send. -/
theorem ltPick_picked (rt : Router) (port : Port) (l : List ℕ) (hn : l ⊆ k.vcs) :
    Picked k rt port (Network.ltPick k rt port l) := by
  induction l with
  | nil => trivial
  | cons d l ih =>
      have ih := ih fun x hx => hn (by simp [hx])
      have hd : d < k.numVc := List.mem_range.mp (hn (by simp))
      have hv : (BitVec.ofNat 64 d + rt.cycle).toNat % k.numVc < k.numVc :=
        Nat.mod_lt _ (Nat.zero_lt_of_lt hd)
      unfold Network.ltPick
      dsimp only
      split
      · exact ih
      · rename_i f fs hb
        split
        · exact ih
        · rename_i hcr
          split
          · rename_i hst
            exact ⟨rfl, _, hv, f, fs, hb, hst⟩
          · split
            · exact ⟨hv, hcr, fs, hb⟩
            · exact ih

/-- A flit leaves through the local port. -/
theorem eject_moves {v : ℕ} {f : Flit} {fs : List Flit} (hc : k.Valid ⟨r, .loc, v⟩)
    (hb : (net.router r).outputBuffer .loc v = f :: fs) :
    Moves k net (net.modify r fun rt => rt.sendFlit .loc v f) := by
  refine moves_of_step ?_ (.eject (net.fabric k) ⟨r, .loc, v⟩ f fs hc hb rfl)
  apply fabric_eq
  case out => exact table_modify_upd _ (by simp [hb])
  case avail =>
    rw [Fabric.freed]
    split
    · exact table_modify_upd _ (by simp [*])
    · exact table_modify_same _ (by simp [*])
  case delivered =>
    dsimp only
    split
    · exact field_modify_upd _ (by simp [Network.fabric, Network.field, *])
    · exact field_modify_same _ (by simp [*])
  case released =>
    funext x y
    simp only [Network.field, modify_router, upd_apply, Network.fabric]
    split
    · simp [Function.update_apply, *]
    · simp [*]
  all_goals first | exact table_modify_same _ (by simp) | exact field_modify_same _ (by simp)

/-- A flit crosses a link. -/
theorem forward_moves {port : Port} {v q : ℕ} {f : Flit} {fs : List Flit} (rdy avail : Counter)
    (hc : k.Valid ⟨r, port, v⟩) (hp : port ≠ .loc) (hl : k.link r port = some q)
    (hcr : (net.router r).credit port v ≠ 0)
    (hb : (net.router r).outputBuffer port v = f :: fs) :
    Moves k net (((net.modify q fun rt => rt.insertPacket f port.opposite v rdy).modify r
      fun rt => { rt with linkAvail := Function.update rt.linkAvail port avail }).modify r
        fun rt => rt.sendFlit port v f) := by
  have hd : k.down ⟨r, port, v⟩ = some ⟨q, port.opposite, v⟩ := by simp [NocKnobs.down, hl]
  refine moves_of_step ?_
    (.forward (net.fabric k) ⟨r, port, v⟩ ⟨q, port.opposite, v⟩ f fs rdy hc hb hp hd hcr)
  rw [modify_modify]
  -- the neighbour may be the router itself, so its change is read through the tables
  have hout : (net.modify q fun rt => rt.insertPacket f port.opposite v rdy).table
      Router.outputBuffer = net.table Router.outputBuffer := table_modify_same _ rfl
  have hcredit : (net.modify q fun rt => rt.insertPacket f port.opposite v rdy).table
      Router.credit = net.table Router.credit := table_modify_same _ rfl
  have hbuf := congrFun hout ⟨r, port, v⟩
  have hval := congrFun hcredit ⟨r, port, v⟩
  simp only [Network.table] at hbuf hval
  apply fabric_eq
  case inp =>
    exact (table_modify_same _ (by simp)).trans (table_modify_upd Router.inputBuffer rfl)
  case out =>
    rw [table_modify_upd Router.outputBuffer (sendFlit_outputBuffer _ _ _ _), hout]
    simp [hbuf, hb, Network.fabric]
  case avail =>
    rw [Fabric.freed]
    split
    · refine (table_modify_upd Router.outputVcAvail (p := port) (v := v) (x := true)
        (by simp [*])).trans ?_
      rw [table_modify_same Router.outputVcAvail rfl]
      rfl
    · exact (table_modify_same _ (by simp [*])).trans (table_modify_same _ rfl)
  case credit =>
    rw [table_modify_upd Router.credit (by rw [sendFlit_credit, if_neg hp]), hcredit]
    simp [hval, Network.fabric, Network.table]
  case delivered =>
    exact (field_modify_same _ (by simp [hp, Router.delivered])).trans (field_modify_same _ rfl)
  case released => exact (field_modify_same _ (by simp [hp])).trans (field_modify_same _ rfl)
  case route =>
    refine (table_modify_same _ ?_).trans (table_modify_same _ rfl)
    rw [sendFlit_usableRoute]
    rfl
  case outPort => exact (table_modify_same _ (by simp)).trans (table_modify_same _ rfl)
  case outVc => exact (table_modify_same _ (by simp)).trans (table_modify_same _ rfl)
  all_goals exact (field_modify_same _ (by simp)).trans (field_modify_same _ rfl)

/-- The link traversal of a port makes moves of the fabric, or fails as the fabric does. -/
theorem ltPort_traces {port : Port} (hr : r < k.numRouter) (hp : port ∈ k.ports) (net : Network) :
    Traces (Moves k) (FabricFaults k) net (Network.ltPort k r net port) := by
  unfold Network.ltPort
  dsimp only
  split
  · exact refl_of (Moves k) net
  · have hpick := ltPick_picked (net.router r) port k.vcs (List.Subset.refl _)
    cases hx : Network.ltPick k (net.router r) port k.vcs with
    | error e =>
        rw [hx] at hpick
        obtain ⟨rfl, v, hv, f, fs, hb, hst⟩ := hpick
        exact ⟨net, refl_of (Moves k) net, .assertSt ⟨r, port, v⟩ f fs ⟨hr, hp, hv⟩ hb hst⟩
    | ok o =>
        cases o with
        | none => exact refl_of (Moves k) net
        | some w =>
            obtain ⟨v, f⟩ := w
            rw [hx] at hpick
            obtain ⟨hv, hcr, fs, hb⟩ := hpick
            dsimp only
            unfold Network.linkTraverse
            split
            · rename_i hloc
              subst hloc
              exact eject_moves ⟨hr, hp, hv⟩ hb
            · rename_i hloc
              cases hl : k.link r port with
              | none =>
                  refine ⟨net, refl_of (Moves k) net, .outNoLink ⟨r, port, v⟩ ⟨hr, hp, hv⟩ hloc hl ?_⟩
                  show (net.router r).outputBuffer port v ≠ []
                  simp [hb]
              | some q => exact forward_moves _ _ ⟨hr, hp, hv⟩ hloc hl hcr hb

/-- The stage of link traversal makes moves of the fabric, or fails as the fabric does. -/
theorem stageLt_traces (hr : r < k.numRouter) (net : Network) :
    Traces (Moves k) (FabricFaults k) net (Network.stageLt k r net) :=
  Traces.foldlM (fun net _ hp => ltPort_traces hr hp net) net

/-- What `stPick` returns is a front flit that holds the switch. -/
theorem stPick_spec {rt : Router} {op ip : Port} {iv : ℕ} {f : Flit}
    (h : Network.stPick k rt op = some (ip, iv, f)) :
    ip ∈ k.ports ∧ iv < k.numVc ∧ rt.outputPortId ip iv = some op ∧
      f.state = .sa ∧ ∃ fs, rt.inputBuffer ip iv = f :: fs := by
  have chan (ii : Port) (hii : ii ∈ k.ports) (jj : ℕ) (g : Flit)
      (hg : Network.stChannel k rt op ii = some (jj, g)) :
      ii ∈ k.ports ∧ jj < k.numVc ∧ rt.outputPortId ii jj = some op ∧
        g.state = .sa ∧ ∃ fs, rt.inputBuffer ii jj = g :: fs := by
    obtain ⟨jj', hmem, hjj⟩ := List.exists_of_findSome?_eq_some hg
    split at hjj
    · rename_i hport
      simp only [Option.map_eq_some_iff, Option.filter_eq_some_iff, front_eq_some, beq_iff_eq,
        Prod.mk.injEq] at hjj
      obtain ⟨g', ⟨hb, hst⟩, rfl, rfl⟩ := hjj
      exact ⟨hii, List.mem_range.mp hmem, hport.2, hst, hb⟩
    · cases hjj
  -- the loop keeps the last port that has a channel
  have loop (l : List Port) (hl : ∀ p ∈ l, p ∈ k.ports) (found : Option (Port × ℕ × Flit))
      (hf : ∀ ip iv f, found = some (ip, iv, f) → ip ∈ k.ports ∧ iv < k.numVc ∧
        rt.outputPortId ip iv = some op ∧ f.state = .sa ∧ ∃ fs, rt.inputBuffer ip iv = f :: fs)
      (hw : l.foldl (fun found ii => (Network.stChannel k rt op ii).elim found fun w =>
        some (ii, w.1, w.2)) found = some (ip, iv, f)) :
      ip ∈ k.ports ∧ iv < k.numVc ∧ rt.outputPortId ip iv = some op ∧ f.state = .sa ∧
        ∃ fs, rt.inputBuffer ip iv = f :: fs := by
    induction l generalizing found with
    | nil => exact hf _ _ _ hw
    | cons p l ih =>
        refine ih (fun x hx => hl x (by simp [hx])) _ ?_ hw
        intro ip' iv' f' h'
        cases hc : Network.stChannel k rt op p with
        | none => exact hf _ _ _ (by simpa [hc] using h')
        | some w =>
            obtain ⟨jj, g⟩ := w
            simp only [hc, Option.elim_some, Option.some.injEq, Prod.mk.injEq] at h'
            obtain ⟨rfl, rfl, rfl⟩ := h'
            exact chan p (hl p (by simp)) jj g hc
  refine loop (k.ports.filter (· ≠ op)) (fun p hp => (List.mem_filter.mp hp).1) none (by simp) ?_
  rw [← h]
  unfold Network.stPick
  refine List.foldl_ext _ _ _ fun found ii _ => ?_
  cases Network.stChannel k rt op ii <;> rfl

section CrossSwitch

variable (rt : Router) (op ip : Port) (iv ov : ℕ) (f : Flit)

/-- A flit that crosses the switch leaves the front of its input buffer. -/
@[simp] theorem crossSwitch_inputBuffer : (rt.crossSwitch op ip iv ov f).inputBuffer =
    upd rt.inputBuffer ip iv (rt.inputBuffer ip iv).tail := by
  unfold Router.crossSwitch
  split_ifs <;> rfl

/-- A flit that crosses the switch joins the end of its output buffer. -/
@[simp] theorem crossSwitch_outputBuffer : (rt.crossSwitch op ip iv ov f).outputBuffer =
    upd rt.outputBuffer op ov (rt.outputBuffer op ov ++ [{ f with state := .st }]) := by
  unfold Router.crossSwitch
  split_ifs <;> rfl

/-- The tail that crosses the switch clears the output port of its channel. -/
@[simp] theorem crossSwitch_outputPortId : (rt.crossSwitch op ip iv ov f).outputPortId =
    if f.tail then upd rt.outputPortId ip iv none else rt.outputPortId := by
  unfold Router.crossSwitch
  split_ifs <;> rfl

/-- The tail that crosses the switch clears the output channel of its channel. -/
@[simp] theorem crossSwitch_outputVcId : (rt.crossSwitch op ip iv ov f).outputVcId =
    if f.tail then upd rt.outputVcId ip iv none else rt.outputVcId := by
  unfold Router.crossSwitch
  split_ifs <;> rfl

/-- The fields that `crossSwitch` leaves alone. -/
@[simp] theorem crossSwitch_frame :
    (rt.crossSwitch op ip iv ov f).outputVcAvail = rt.outputVcAvail ∧
    (rt.crossSwitch op ip iv ov f).credit = rt.credit ∧
    (rt.crossSwitch op ip iv ov f).pendingCredit = rt.pendingCredit ∧
    (rt.crossSwitch op ip iv ov f).injectionBuffer = rt.injectionBuffer ∧
    (rt.crossSwitch op ip iv ov f).delivered = rt.delivered ∧
    (rt.crossSwitch op ip iv ov f).accepted = rt.accepted ∧
    (rt.crossSwitch op ip iv ov f).released = rt.released := by
  unfold Router.crossSwitch
  split_ifs <;> exact ⟨rfl, rfl, rfl, rfl, rfl, rfl, rfl⟩

/-- Crossing the switch keeps the usable routes. -/
@[simp] theorem crossSwitch_usableRoute :
    (rt.crossSwitch op ip iv ov f).usableRoute k = rt.usableRoute k := by
  unfold Router.crossSwitch
  split_ifs <;> rfl

end CrossSwitch

/-- The fabric after a flit has crossed the switch. -/
theorem fabric_crossSwitch {op ip : Port} {iv ov : ℕ} {f : Flit} {fs : List Flit}
    (hb : (net.router r).inputBuffer ip iv = f :: fs) :
    (net.modify r fun rt => rt.crossSwitch op ip iv ov f).fabric k =
      { net.fabric k with
        out := Function.update (net.fabric k).out ⟨r, op, ov⟩
          ((net.fabric k).out ⟨r, op, ov⟩ ++ [{ f with state := .st }])
        inp := Function.update (net.fabric k).inp ⟨r, ip, iv⟩ fs
        outPort := Fabric.dropped (net.fabric k).outPort ⟨r, ip, iv⟩ f
        outVc := Fabric.dropped (net.fabric k).outVc ⟨r, ip, iv⟩ f } := by
  apply fabric_eq
  case inp => exact table_modify_upd _ (by simp [hb])
  case out => exact table_modify_upd _ (by simp [Network.fabric, Network.table])
  case outPort =>
    dsimp only
    rw [Fabric.dropped]
    split
    · exact table_modify_upd _ (by simp [*])
    · exact table_modify_same _ (by simp [*])
  case outVc =>
    dsimp only
    rw [Fabric.dropped]
    split
    · exact table_modify_upd _ (by simp [*])
    · exact table_modify_same _ (by simp [*])
  all_goals first | exact table_modify_same _ (by simp) | exact field_modify_same _ (by simp)

/-- The fabric after a credit has been queued. -/
theorem fabric_insertCredit (c : Credit) :
    (net.modify r fun rt => rt.insertCredit c).fabric k =
      { net.fabric k with
        pending := Function.update (net.fabric k).pending r ((net.fabric k).pending r ++ [c]) } := by
  apply fabric_eq
  case pending => exact field_modify_upd _ rfl
  all_goals first | exact table_modify_same _ rfl | exact field_modify_same _ rfl

/-- The switch traversal of a port makes moves of the fabric, or fails as the fabric does. -/
theorem stPort_traces (hr : r < k.numRouter) (net : Network) (op : Port) :
    Traces (Moves k) (FabricFaults k) net (Network.stPort k r net op) := by
  unfold Network.stPort
  cases hpick : Network.stPick k (net.router r) op with
  | none => exact refl_of (Moves k) net
  | some w =>
      obtain ⟨ip, iv, f⟩ := w
      obtain ⟨hip, hiv, hport, hst, fs, hb⟩ := stPick_spec hpick
      have hi : k.Valid ⟨r, ip, iv⟩ := ⟨hr, hip, hiv⟩
      dsimp only
      unfold Network.switchTraverse
      cases hov : (net.router r).outputVcId ip iv with
      | none => exact ⟨net, refl_of (Moves k) net, .badVc ⟨r, ip, iv⟩ op hi hport hov⟩
      | some ov =>
          have hn : (net.fabric k).Names ⟨r, ip, iv⟩ ⟨r, op, ov⟩ := ⟨rfl, hport, hov⟩
          dsimp only
          split
          · rename_i hp
            exact moves_of_step (fabric_crossSwitch hb)
              (.crossLocal (net.fabric k) ⟨r, ip, iv⟩ ⟨r, op, ov⟩ f fs hi hn hb hst hp)
          · rename_i hp
            cases hl : k.link r ip with
            | none =>
                refine ⟨net, refl_of (Moves k) net, .inpNoLink ⟨r, ip, iv⟩ hi hp hl ?_⟩
                show (net.router r).inputBuffer ip iv ≠ []
                simp [hb]
            | some q =>
                have hu : k.down ⟨r, ip, iv⟩ = some ⟨q, ip.opposite, iv⟩ := by
                  simp [NocKnobs.down, hl]
                refine moves_of_step (fabric_insertCredit _) ?_
                rw [fabric_crossSwitch hb]
                exact .cross (net.fabric k) ⟨r, ip, iv⟩ ⟨r, op, ov⟩ ⟨q, ip.opposite, iv⟩ f fs _ hi
                  hn hb hst hp hu

/-- The stage of switch traversal makes moves of the fabric, or fails as the fabric does. -/
theorem stageSt_traces (hr : r < k.numRouter) (net : Network) :
    Traces (Moves k) (FabricFaults k) net (Network.stageSt k r net) :=
  Traces.foldlM (fun net op _ => stPort_traces hr net op) net

end Neighbours

/-! ## Ticks and runs -/

/-- The clock of a router is not part of the fabric. -/
theorem moves_clock {r : ℕ} (net : Network) :
    Moves k net (net.modify r fun rt => { rt with cycle := rt.cycle + 1 }) := by
  refine moves_of_fabric_eq (fabric_eq ?_ ?_ ?_ ?_ ?_ ?_ ?_ ?_ ?_ ?_ ?_ ?_)
  all_goals first | exact table_modify_same _ rfl | exact field_modify_same _ rfl

/-- A tick of a router is a sequence of fabric moves, and it faults only for a reason that the
fabric shows. -/
theorem runACycle_traces {r : ℕ} (hr : r < k.numRouter) (net : Network) (now : Counter)
    (pllLock : Bool) : Traces (Moves k) (FabricFaults k) net (net.runACycle k r now pllLock) := by
  unfold Network.runACycle
  cases pllLock with
  | true => exact moves_clock net
  | false =>
      simp only [Bool.false_eq_true, if_false]
      have hcredit : Moves k net (net.modify r (Router.processPendingCredit now)) :=
        MovesAt.modify net fun rt => creditLoop_moves hr now _ [] (by simp)
      refine Traces.of_move hcredit (Traces.bind (stageLt_traces hr _) fun net => ?_)
      have hsa : Moves k net (net.modify r (Router.stageSa k)) :=
        MovesAt.modify net (stageSa_moves hr)
      refine Traces.of_move hsa (Traces.bind (stageSt_traces hr _) fun net => ?_)
      have hrc : Moves k net (net.modify r (Router.stageRc k r)) :=
        MovesAt.modify net (stageRc_moves hr)
      refine Traces.of_move hrc ?_
      generalize net.modify r (Router.stageRc k r) = net
      have hvca := stageVca_traces hr (net.router r)
      cases hx : Router.stageVca k r (net.router r) with
      | error e =>
          rw [hx] at hvca
          obtain ⟨m, hm, hf⟩ := hvca
          exact ⟨net.modify r fun _ => m, hm net rfl, hf _ (by simp)⟩
      | ok rt =>
          rw [hx] at hvca
          have hinj : Moves k (net.modify r fun _ => rt)
              ((net.modify r fun _ => rt).modify r (Router.localPacketInjection k)) :=
            MovesAt.modify _ fun rt => injectLoop_moves hr _ rt rfl
          exact trans_of (Moves k) (hvca net rfl) (trans_of (Moves k) hinj (moves_clock _))

/-- Popping a received request only moves it between two records of delivered requests. -/
theorem moves_popReq {r : ℕ} (net : Network) : Moves k net (net.modify r Router.popReq) := by
  refine moves_of_fabric_eq ?_
  by_cases hb : (net.router r).reqBuffer = []
  · rw [modify_eq_self]
    simp [Router.popReq, hb]
  · obtain ⟨req, rest, hb⟩ := List.exists_cons_of_ne_nil hb
    have hpop : (net.router r).popReq = { net.router r with
        reqBuffer := rest, received := (net.router r).received ++ [req] } := by
      simp [Router.popReq, hb]
    apply fabric_eq
    case delivered => exact field_modify_same _ (by simp [Router.delivered, hpop, hb])
    case route => exact table_modify_same _ (by rw [hpop]; rfl)
    all_goals
      first | exact table_modify_same _ (by rw [hpop]) | exact field_modify_same _ (by rw [hpop])

/-- A send is refused or accepts one request. -/
theorem moves_send {src dst : ℕ} (hsrc : src < k.numRouter) (hdst : dst < k.numRouter)
    (net : Network) (req : NocReq) : Moves k net (net.send req src dst).2 := by
  unfold Network.send Router.inject
  split
  · dsimp only
    refine moves_of_step ?_ (.accept (net.fabric k) src
      { req with msgSrc := src, msgDst := dst } hsrc hdst)
    apply fabric_eq
    case waiting => exact field_modify_upd _ rfl
    case accepted => exact field_modify_upd _ rfl
    all_goals first | exact table_modify_same _ rfl | exact field_modify_same _ rfl
  · dsimp only
    rw [modify_eq_self rfl]
    exact refl_of (Moves k) net

/-- A new network is the empty fabric. -/
theorem fabric_new (cycle : ℕ → Counter) : (Network.new cycle).fabric k = Fabric.empty := by
  apply fabric_eq
  case route =>
    funext c q
    simp only [Network.table, Router.usableRoute, Network.new, Router.new, Fabric.empty]
    cases k.topology <;> rfl
  all_goals rfl

/-- The fabric of every reachable network is reached from the empty fabric. -/
theorem reachable_fabric {net : Network} (h : net.Reachable k) :
    ReflTransGen (Fabric.Step k) Fabric.empty (net.fabric k) := by
  induction h with
  | new cycle => rw [fabric_new]
  | send net req src dst hsrc hdst _ ih => exact ih.trans (moves_send hsrc hdst net req)
  | tick net net' r now pllLock hr _ ht ih =>
      have := runACycle_traces hr net now pllLock
      rw [ht] at this
      exact ih.trans this
  | pop net r hr _ ih => exact ih.trans (moves_popReq net)

/-- What holds of the empty fabric and is kept by every move holds of every reachable
network. -/
theorem reachable_invariant {Inv : Fabric → Prop} (h0 : Inv Fabric.empty)
    (hstep : ∀ F G, Inv F → F.Step k G → Inv G) {net : Network} (h : net.Reachable k) :
    Inv (net.fabric k) := by
  have hrun := reachable_fabric h
  generalize net.fabric k = F at hrun
  induction hrun with
  | refl => exact h0
  | tail _ hs ih => exact hstep _ _ ih hs

end MacSim.Analysis
