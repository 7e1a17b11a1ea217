import MacSim.Analysis.FabricRefinement

/-!
# Credits are conserved

A credit of an output channel is at the channel, in the buffer that the channel feeds (as a
flit that has used it), or on its way back.  The links of both topologies are symmetric, so
each input channel is fed by exactly one output channel and each move of the fabric shifts one
credit between two of these places.  Channels without a link never send, hence keep their
initial credit.
-/

set_option autoImplicit false

namespace MacSim.Analysis

open MacSim.Model MacSim.Computation

variable {k : NocKnobs}

/-! ## Links are symmetric -/

/-- In a ring the link of a port leads back through the opposite port. -/
theorem link_symm_ring {r q : ℕ} {p : Port} (ht : k.topology = .ring) (hr : r < k.numRouter)
    (h : k.link r p = some q) : q < k.numRouter ∧ k.link q p.opposite = some r := by
  have hpos : 0 < k.numRouter := Nat.zero_lt_of_lt hr
  cases p with
  | left =>
      simp only [NocKnobs.link, ht, Option.some.injEq] at h
      subst h
      refine ⟨Nat.mod_lt _ hpos, ?_⟩
      simp only [NocKnobs.link, ht, Port.opposite, Option.some.injEq]
      rcases Nat.eq_zero_or_pos r with rfl | h0
      · rw [Nat.zero_add, Nat.mod_eq_of_lt (by omega : k.numRouter - 1 < k.numRouter),
          Nat.sub_add_cancel hpos, Nat.mod_self]
      · rw [show r + k.numRouter - 1 = r - 1 + k.numRouter by omega, Nat.add_mod_right,
          Nat.mod_eq_of_lt (by omega : r - 1 < k.numRouter), Nat.sub_add_cancel h0,
          Nat.mod_eq_of_lt hr]
  | right =>
      simp only [NocKnobs.link, ht, Option.some.injEq] at h
      subst h
      refine ⟨Nat.mod_lt _ hpos, ?_⟩
      simp only [NocKnobs.link, ht, Port.opposite, Option.some.injEq]
      rcases Nat.lt_or_ge (r + 1) k.numRouter with h1 | h1
      · rw [Nat.mod_eq_of_lt h1, show r + 1 + k.numRouter - 1 = r + k.numRouter by omega,
          Nat.add_mod_right, Nat.mod_eq_of_lt hr]
      · rw [show r + 1 = k.numRouter by omega, Nat.mod_self, Nat.zero_add,
          Nat.mod_eq_of_lt (by omega)]
        omega
  | loc => simp [NocKnobs.link, ht] at h
  | up => simp [NocKnobs.link, ht] at h
  | down => simp [NocKnobs.link, ht] at h

/-- In a mesh the link of a port leads back through the opposite port. -/
theorem link_symm_mesh {r q : ℕ} {p : Port} (ht : k.topology = .mesh) (hr : r < k.numRouter)
    (h : k.link r p = some q) : q < k.numRouter ∧ k.link q p.opposite = some r := by
  rw [mesh_numRouter ht] at hr ⊢
  -- row `a` and column `b` of the router
  obtain ⟨a, b, hb, rfl⟩ : ∃ a b, b < k.width ∧ r = k.width * a + b :=
    ⟨r / k.width, r % k.width, Nat.mod_lt _ (Nat.pos_of_mul_pos_right (Nat.zero_lt_of_lt hr)),
      (Nat.div_add_mod r k.width).symm⟩
  have hw : 0 < k.width := by omega
  have hdiv (x y : ℕ) (hy : y < k.width) : (k.width * x + y) / k.width = x := by
    rw [Nat.mul_add_div hw, Nat.div_eq_of_lt hy, Nat.add_zero]
  have hmod (x y : ℕ) (hy : y < k.width) : (k.width * x + y) % k.width = y := by
    rw [Nat.mul_add_mod, Nat.mod_eq_of_lt hy]
  have hfit (x y : ℕ) (hx : x < k.width) (hy : y < k.width) :
      k.width * x + y < k.width * k.width := by
    calc k.width * x + y < k.width * (x + 1) := by rw [Nat.mul_succ]; omega
      _ ≤ k.width * k.width := Nat.mul_le_mul_left _ hx
  have ha : a < k.width := by
    by_contra hc
    have := Nat.mul_le_mul_left k.width (Nat.not_lt.mp hc)
    omega
  cases p with
  | loc => simp [NocKnobs.link, ht] at h
  | left =>
      simp only [NocKnobs.link, ht, hmod a b hb, Option.ite_none_right_eq_some,
        Option.some.injEq] at h
      obtain ⟨h0, rfl⟩ := h
      rw [show k.width * a + b - 1 = k.width * a + (b - 1) by omega]
      refine ⟨hfit _ _ ha (by omega), ?_⟩
      simp only [NocKnobs.link, ht, Port.opposite, hmod a (b - 1) (by omega)]
      rw [if_pos (by omega)]
      exact congrArg some (by omega)
  | right =>
      simp only [NocKnobs.link, ht, hmod a b hb, Option.ite_none_right_eq_some,
        Option.some.injEq] at h
      obtain ⟨h0, rfl⟩ := h
      rw [show k.width * a + b + 1 = k.width * a + (b + 1) by omega]
      refine ⟨hfit _ _ ha (by omega), ?_⟩
      simp only [NocKnobs.link, ht, Port.opposite, hmod a (b + 1) (by omega)]
      rw [if_pos (by omega)]
      exact congrArg some (by omega)
  | up =>
      simp only [NocKnobs.link, ht, hdiv a b hb, Option.ite_none_right_eq_some,
        Option.some.injEq] at h
      obtain ⟨h0, rfl⟩ := h
      have hrow : k.width * a = k.width * (a - 1) + k.width := by
        rw [← Nat.mul_succ, Nat.succ_eq_add_one, Nat.sub_add_cancel h0]
      rw [show k.width * a + b - k.width = k.width * (a - 1) + b by omega]
      refine ⟨hfit _ _ (by omega) hb, ?_⟩
      simp only [NocKnobs.link, ht, Port.opposite, hdiv (a - 1) b hb]
      rw [if_pos (by omega)]
      exact congrArg some (by omega)
  | down =>
      simp only [NocKnobs.link, ht, hdiv a b hb, Option.ite_none_right_eq_some,
        Option.some.injEq] at h
      obtain ⟨h0, rfl⟩ := h
      rw [show k.width * a + b + k.width = k.width * (a + 1) + b by rw [Nat.mul_succ]; omega]
      refine ⟨hfit _ _ (by omega) hb, ?_⟩
      simp only [NocKnobs.link, ht, Port.opposite, hdiv (a + 1) b hb]
      rw [if_pos (by omega)]
      refine congrArg some ?_
      rw [Nat.mul_succ]
      omega

/-- The link of a port leads back through the opposite port. -/
theorem link_symm {r q : ℕ} {p : Port} (hr : r < k.numRouter) (h : k.link r p = some q) :
    q < k.numRouter ∧ k.link q p.opposite = some r := by
  cases ht : k.topology with
  | ring => exact link_symm_ring ht hr h
  | mesh => exact link_symm_mesh ht hr h

/-- A channel with a link is not local. -/
theorem ne_loc_of_link {r q : ℕ} {p : Port} (h : k.link r p = some q) : p ≠ .loc := by
  rintro rfl
  unfold NocKnobs.link at h
  cases ht : k.topology <;> simp [ht] at h

/-- Each channel with a link and the one at the other end are each other's opposite. -/
theorem down_symm {c d : Chan} (hc : c.r < k.numRouter) (h : k.down c = some d) :
    d.r < k.numRouter ∧ k.down d = some c := by
  simp only [NocKnobs.down, Option.map_eq_some_iff] at h
  obtain ⟨q, hq, rfl⟩ := h
  obtain ⟨hlt, hback⟩ := link_symm hc hq
  refine ⟨hlt, ?_⟩
  simp only [NocKnobs.down, hback, Option.map_some, Option.some.injEq]
  ext
  · rfl
  · cases c.p <;> rfl
  · rfl

/-- The local port is at neither end of a link. -/
theorem down_ne_loc {c d : Chan} (hc : c.r < k.numRouter) (h : k.down c = some d) :
    c.p ≠ .loc ∧ d.p ≠ .loc := by
  have hback := (down_symm hc h).2
  simp only [NocKnobs.down, Option.map_eq_some_iff] at h hback
  obtain ⟨q, hq, -⟩ := h
  obtain ⟨q', hq', -⟩ := hback
  exact ⟨ne_loc_of_link hq, ne_loc_of_link hq'⟩

/-- No two channels feed the same one. -/
theorem down_inj {c c' d d' : Chan} (hc : c.r < k.numRouter) (hc' : c'.r < k.numRouter)
    (h : k.down c = some d) (h' : k.down c' = some d') : d = d' ↔ c = c' := by
  constructor
  · rintro rfl
    have h1 := (down_symm hc h).2
    have h2 := (down_symm hc' h').2
    exact Option.some.inj (h1.symm.trans h2)
  · rintro rfl
    exact Option.some.inj (h.symm.trans h')

/-! ## The invariant -/

/-- The credits of `c` that are on their way back. -/
def owed (F : Fabric) (c : Chan) : ℕ :=
  (F.pending c.r).countP fun cr => decide (cr.port = c.p ∧ cr.vc = c.v)

/-- Where the credits are. -/
structure CreditInv (k : NocKnobs) (F : Fabric) : Prop where
  conserved : ∀ c d, c.r < k.numRouter → k.down c = some d →
    F.credit c + (F.inp d).length + owed F c = initialCredit
  nonneg : ∀ c, 0 ≤ F.credit c
  unlinked : ∀ c, c.r < k.numRouter → k.down c = none → F.credit c = initialCredit
  edge : ∀ i, i.r < k.numRouter → i.p ≠ .loc → k.down i = none → F.inp i = []
  linked : ∀ r, r < k.numRouter → ∀ cr ∈ F.pending r, (k.down ⟨r, cr.port, cr.vc⟩).isSome

/-- The credits of the empty fabric are right. -/
theorem creditInv_empty : CreditInv k Fabric.empty where
  conserved _ _ _ _ := rfl
  nonneg _ := by simp [Fabric.empty, initialCredit]
  unlinked _ _ _ := rfl
  edge _ _ _ _ := rfl
  linked _ _ cr h := by simp [Fabric.empty] at h

/-- Moves that keep the credits, the queued credits and the lengths of the linked buffers. -/
theorem CreditInv.of_same {F G : Fabric} (hF : CreditInv k F) (hcr : G.credit = F.credit)
    (hpend : G.pending = F.pending)
    (hlen : ∀ i, i.p ≠ .loc → (G.inp i).length = (F.inp i).length) : CreditInv k G where
  conserved c d hc hd := by
    have := hF.conserved c d hc hd
    rw [owed, hcr, hpend, hlen d (down_ne_loc hc hd).2]
    exact this
  nonneg c := by
    rw [hcr]
    exact hF.nonneg c
  unlinked c hc hd := by
    rw [hcr]
    exact hF.unlinked c hc hd
  edge i hi hp hd := by
    rw [← List.length_eq_zero_iff, hlen i hp, hF.edge i hi hp hd, List.length_nil]
  linked r hr cr h := hF.linked r hr cr (hpend ▸ h)

/-- A write to the front flit keeps every length. -/
theorem length_update_front {F : Fabric} {i : Chan} {f g : Flit} {fs : List Flit}
    (hb : F.inp i = f :: fs) (j : Chan) :
    (Function.update F.inp i (g :: fs) j).length = (F.inp j).length := by
  by_cases hj : j = i
  · subst hj
    simp [hb]
  · simp [Function.update_of_ne hj]

/-- What is written at a local port does not change the length of another buffer. -/
theorem length_update_loc {F : Fabric} {i j : Chan} {l : List Flit} (hi : i.p = .loc)
    (hj : j.p ≠ .loc) : (Function.update F.inp i l j).length = (F.inp j).length := by
  have : j ≠ i := by
    rintro rfl
    exact hj hi
  simp [Function.update_of_ne this]

/-! ## One lemma for each move that shifts a credit -/

section Moves

variable {F : Fabric} {f : Flit} {fs : List Flit}

/-- A flit leaves a linked input buffer and its credit starts on the way back. -/
theorem CreditInv.cross (hF : CreditInv k F) {i u : Chan} {rdy : Counter} {G : Fabric}
    (hi : i.r < k.numRouter) (hb : F.inp i = f :: fs) (hu : k.down i = some u)
    (hcr : G.credit = F.credit) (hinp : G.inp = Function.update F.inp i fs)
    (hpend : G.pending = Function.update F.pending u.r
      (F.pending u.r ++ [{ rdyCycle := rdy, port := u.p, vc := u.v }])) : CreditInv k G := by
  obtain ⟨hur, hback⟩ := down_symm hi hu
  have howed (c : Chan) : owed G c = owed F c + if c = u then 1 else 0 := by
    simp only [owed, hpend]
    by_cases hr : c.r = u.r
    · have heq : (u.p = c.p ∧ u.v = c.v) ↔ c = u :=
        ⟨fun h => Chan.ext hr h.1.symm h.2.symm, fun h => h ▸ ⟨rfl, rfl⟩⟩
      simp [hr, List.countP_append, List.countP_singleton, heq]
    · have : c ≠ u := fun h => hr (h ▸ rfl)
      simp [Function.update_of_ne hr, this]
  refine ⟨fun c d hc hd => ?_, fun c => hcr ▸ hF.nonneg c, fun c hc hd => hcr ▸ hF.unlinked c hc hd,
    fun j hj hp hd => ?_, fun r hr cr h => ?_⟩
  · have hold := hF.conserved c d hc hd
    have hsame := down_inj hc hur hd hback
    rw [hcr, hinp, howed]
    by_cases hcu : c = u
    · obtain rfl := hsame.mpr hcu
      simp only [hb, List.length_cons, Function.update_self, hcu, if_true] at hold ⊢
      push_cast at hold ⊢
      linarith
    · rw [Function.update_of_ne fun h => hcu (hsame.mp h), if_neg hcu]
      exact hold
  · rw [hinp, Function.update_of_ne]
    · exact hF.edge j hj hp hd
    · rintro rfl
      simp [hd] at hu
  · rw [hpend, Function.update_apply] at h
    split at h
    · rename_i hru
      subst hru
      rcases List.mem_append.mp h with h | h
      · exact hF.linked _ hr cr h
      · obtain rfl := List.mem_singleton.mp h
        simp [hback]
    · exact hF.linked r hr cr h

/-- A flit enters a linked input buffer and uses up a credit. -/
theorem CreditInv.forward (hF : CreditInv k F) {c d : Chan} {g : Flit} {G : Fabric}
    (hc : c.r < k.numRouter) (hd : k.down c = some d) (hne : F.credit c ≠ 0)
    (hcr : G.credit = Function.update F.credit c (F.credit c - 1))
    (hinp : G.inp = Function.update F.inp d (F.inp d ++ [g])) (hpend : G.pending = F.pending) :
    CreditInv k G := by
  refine ⟨fun c' d' hc' hd' => ?_, fun c' => ?_, fun c' hc' hd' => ?_, fun j hj hp hdj => ?_,
    fun r hr cr h => hF.linked r hr cr (hpend ▸ h)⟩
  · have hold := hF.conserved c' d' hc' hd'
    have hsame := down_inj hc' hc hd' hd
    rw [hcr, hinp, owed, hpend]
    by_cases hcc : c' = c
    · obtain rfl := hsame.mpr hcc
      subst hcc
      simp only [Function.update_self, List.length_append, List.length_singleton]
      rw [owed] at hold
      push_cast
      linarith
    · rw [Function.update_of_ne hcc, Function.update_of_ne fun h => hcc (hsame.mp h)]
      exact hold
  · have hpos := hF.nonneg c
    rw [hcr, Function.update_apply]
    split
    · omega
    · exact hF.nonneg c'
  · rw [hcr, Function.update_of_ne]
    · exact hF.unlinked c' hc' hd'
    · rintro rfl
      simp [hd] at hd'
  · rw [hinp, Function.update_of_ne]
    · exact hF.edge j hj hp hdj
    · rintro rfl
      simp [(down_symm hc hd).2] at hdj

/-- A queued credit comes back. -/
theorem CreditInv.creditBack (hF : CreditInv k F) {r : ℕ} {kept rest : List Credit} {cr : Credit}
    {G : Fabric} (hr : r < k.numRouter) (hb : F.pending r = kept ++ cr :: rest)
    (hcr : G.credit = Function.update F.credit ⟨r, cr.port, cr.vc⟩
      (F.credit ⟨r, cr.port, cr.vc⟩ + 1))
    (hinp : G.inp = F.inp) (hpend : G.pending = Function.update F.pending r (kept ++ rest)) :
    CreditInv k G := by
  have howed (c : Chan) :
      owed F c = owed G c + if c = ⟨r, cr.port, cr.vc⟩ then 1 else 0 := by
    simp only [owed, hpend]
    by_cases hcr' : c.r = r
    · have heq : (cr.port = c.p ∧ cr.vc = c.v) ↔ c = ⟨r, cr.port, cr.vc⟩ :=
        ⟨fun h => Chan.ext hcr' h.1.symm h.2.symm, fun h => by rw [h]; exact ⟨rfl, rfl⟩⟩
      simp only [hcr', Function.update_self, hb, List.countP_append, List.countP_cons,
        decide_eq_true_eq, heq, Nat.add_assoc]
    · have : c ≠ ⟨r, cr.port, cr.vc⟩ := fun h => hcr' (h ▸ rfl)
      simp [Function.update_of_ne hcr', this]
  refine ⟨fun c d hc hd => ?_, fun c => ?_, fun c hc hd => ?_,
    fun j hj hp hd => hinp ▸ hF.edge j hj hp hd, fun x hx c h => ?_⟩
  · have hold := hF.conserved c d hc hd
    rw [howed] at hold
    rw [hcr, hinp, Function.update_apply]
    split
    · rename_i heq
      simp only [heq, if_true] at hold ⊢
      push_cast at hold
      linarith
    · rename_i hne
      simpa [hne] using hold
  · have := hF.nonneg ⟨r, cr.port, cr.vc⟩
    rw [hcr, Function.update_apply]
    split
    · omega
    · exact hF.nonneg c
  · rw [hcr, Function.update_of_ne]
    · exact hF.unlinked c hc hd
    · rintro rfl
      have := hF.linked r hr cr (by simp [hb])
      simp [hd] at this
  · rw [hpend, Function.update_apply] at h
    split at h
    · rename_i hxr
      subst hxr
      refine hF.linked x hx c ?_
      rw [hb]
      simp only [List.mem_append, List.mem_cons] at h ⊢
      tauto
    · exact hF.linked x hx c h

end Moves

/-- Every move of the fabric keeps the invariant. -/
theorem CreditInv.step {F G : Fabric} (hF : CreditInv k F) (hs : F.Step k G) : CreditInv k G := by
  cases hs with
  | accept r req hr hdst => exact hF.of_same rfl rfl fun _ _ => rfl
  | inject c req rest cycle hc hp hw =>
      exact hF.of_same rfl rfl fun i hi => length_update_loc hp hi
  | computeRoute i f fs enabled dir hi hb hst hroute hdir hhead hring =>
      exact hF.of_same rfl rfl fun j _ => length_update_front hb j
  | grantVc i c f fs hi hc hr hb hst hroute havail =>
      exact hF.of_same rfl rfl fun j _ => length_update_front hb j
  | grantSwitch i f fs hi hb hst => exact hF.of_same rfl rfl fun j _ => length_update_front hb j
  | crossLocal i c f fs hi hn hb hst hp =>
      exact hF.of_same rfl rfl fun j hj => length_update_loc hp hj
  | cross i c u f fs rdy hi hn hb hst hp hu => exact hF.cross hi.1 hb hu rfl rfl rfl
  | eject c f fs hc hb hp => exact hF.of_same rfl rfl fun _ _ => rfl
  | forward c d f fs rdy hc hb hp hd hcr => exact hF.forward hc.1 hd hcr rfl rfl rfl
  | creditBack r kept rest cr hr hb => exact hF.creditBack hr hb rfl rfl rfl

/-- The credits of every reachable network are right. -/
theorem creditInv_reachable {net : Network} (h : net.Reachable k) : CreditInv k (net.fabric k) :=
  reachable_invariant creditInv_empty (fun _ _ => CreditInv.step) h

/-- In every reachable network, the credits of an output channel with a neighbour, the flits in
the neighbour's input buffer and the credits queued for the channel are ten together; every
credit counter stays between zero and ten and no input buffer of a link holds more than ten
flits. -/
theorem credits_conserved (k : NocKnobs) (net : Network) (h : net.Reachable k) :
    (∀ r < k.numRouter, ∀ (p : Port) (v q : ℕ), k.link r p = some q →
      (net.router r).credit p v + ((net.router q).inputBuffer p.opposite v).length +
        (net.router r).pendingCredit.countP (fun c => decide (c.port = p ∧ c.vc = v)) = 10) ∧
    (∀ r < k.numRouter, ∀ (p : Port) (v : ℕ),
      0 ≤ (net.router r).credit p v ∧ (net.router r).credit p v ≤ 10) ∧
    (∀ r < k.numRouter, ∀ (p : Port) (v : ℕ), p ≠ .loc →
      ((net.router r).inputBuffer p v).length ≤ 10) := by
  have hinv := creditInv_reachable h
  have conserved (r : ℕ) (hr : r < k.numRouter) (p : Port) (v q : ℕ) (hl : k.link r p = some q) :
      (net.router r).credit p v + ((net.router q).inputBuffer p.opposite v).length +
        (net.router r).pendingCredit.countP (fun c => decide (c.port = p ∧ c.vc = v)) = 10 :=
    hinv.conserved ⟨r, p, v⟩ ⟨q, p.opposite, v⟩ hr (by simp [NocKnobs.down, hl])
  refine ⟨conserved, fun r hr p v => ?_, fun r hr p v hp => ?_⟩
  · have hnn : 0 ≤ (net.router r).credit p v := hinv.nonneg ⟨r, p, v⟩
    refine ⟨hnn, ?_⟩
    cases hl : k.link r p with
    | none =>
        have : (net.router r).credit p v = 10 :=
          hinv.unlinked ⟨r, p, v⟩ hr (by simp [NocKnobs.down, hl])
        omega
    | some q =>
        have := conserved r hr p v q hl
        omega
  · cases hl : k.link r p with
    | none =>
        have : (net.router r).inputBuffer p v = [] :=
          hinv.edge ⟨r, p, v⟩ hr hp (by simp [NocKnobs.down, hl])
        simp [this]
    | some u =>
        -- the buffer is fed by the channel at the other end of its own link
        obtain ⟨hu, hback⟩ := link_symm hr hl
        have hsum := conserved u hu p.opposite v r hback
        have hnn : 0 ≤ (net.router u).credit p.opposite v := hinv.nonneg ⟨u, p.opposite, v⟩
        have hpp : p.opposite.opposite = p := by cases p <;> rfl
        rw [hpp] at hsum
        omega

/-- Two routers in a ring with two virtual channels. -/
def twoRing : NocKnobs :=
  { topology := .ring, numNode := 2, numVc := 2, linkLatency := 1, linkWidth := 16
    gpuValidation := false, useRrForNocInsertion := false }

/-- A request to acknowledge, from router `0` to router `1`. -/
def ackReq : NocReq := { id := 7, msgType := .ack, size := 64, msgSrc := 0, msgDst := 1 }

/-- The ring with the request accepted at router `0`. -/
def afterSend : Network := ((Network.new fun _ => 0).send ackReq 0 1).2

/-- The network after a packet was sent is reachable. -/
theorem afterSend_reachable : afterSend.Reachable twoRing :=
  (Network.Reachable.new _).send _ ackReq 0 1 (by decide) (by decide)

/-- After four ticks of router `0` its flit is in the buffer of router `1`, which holds the one
credit that is missing. -/
theorem credits_conserved_twoRing : ∃ net, Network.Reachable twoRing net ∧
    (net.router 0).credit .right 0 = 9 ∧
    (net.router 0).credit .right 0 + ((net.router 1).inputBuffer .left 0).length +
      (net.router 0).pendingCredit.countP
        (fun c => decide (c.port = .right ∧ c.vc = 0)) = 10 := by
  have hrun : (afterSend.ticks twoRing [(0, 0), (0, 1), (0, 2), (0, 3)]).toOption.map
      (fun net => (net.router 0).credit .right 0) = some 9 := by decide +kernel
  obtain ⟨net, hnet, hcr⟩ := exists_ok_of_observed hrun
  have hreach := afterSend_reachable.ticks (by decide) hnet
  exact ⟨net, hreach, hcr,
    (credits_conserved twoRing net hreach).1 0 (by decide) .right 0 1 (by decide)⟩

end MacSim.Analysis
