import Mathlib.Data.Nat.Dist
import MacSim.Analysis.FabricRefinement

/-!
# The routes of the mesh

A router of the mesh is a pair of coordinates, the remainder and the quotient of its number by
the width.  `meshRoute_cases` says what an open port is about: it decreases the distance in one
coordinate by one and leaves the other one alone.  That the routes are minimal and that the
escape channels are free of cycles follows from it.

The class of a virtual channel is its number divided by the number of virtual channels less
one.  The mesh accepts a single virtual channel, for which there is no class at all.
-/

set_option autoImplicit false

namespace MacSim.Analysis

open MacSim.Model

variable {k : NocKnobs} {f : Flit} {r r' : ℕ}

/-- The number of links between two routers. -/
def meshDist (k : NocKnobs) (r d : ℕ) : ℕ :=
  Nat.dist (r % k.width) (d % k.width) + Nat.dist (r / k.width) (d / k.width)

/-- A packet goes to a neighbour through a port that some routing class opens. -/
def MeshHop (k : NocKnobs) (f : Flit) (r r' : ℕ) : Prop :=
  ∃ (cls : Fin 2) (q : Port), Router.meshRoute k r f cls q = true ∧ k.link r q = some r'

/-- The virtual channel is one of the second class, the escape route. -/
def InEscapeClass (k : NocKnobs) (v : ℕ) : Prop := v < k.numVc ∧ Router.rcIndex k v = .ok 1

/-- A packet may ask for the channel `c` of the second class. -/
def MeshAsksFor (k : NocKnobs) (f : Flit) (c : Chan) : Prop :=
  InEscapeClass k c.v ∧ Router.meshRoute k c.r f 1 c.p = true

/-- A packet can hold the channel `c` when it asks for the channel `c'`, at the next router or
later, whatever channels it takes in between. -/
def MeshDepends (k : NocKnobs) (c c' : Chan) : Prop :=
  ∃ (f : Flit) (m : ℕ), f.dst < k.numRouter ∧ c.r < k.numRouter ∧ MeshAsksFor k f c ∧
    k.link c.r c.p = some m ∧ Relation.ReflTransGen (MeshHop k f) m c'.r ∧ MeshAsksFor k f c'

/-- What a mesh is to do for packets between different routers. -/
structure MinimalRouting (k : NocKnobs) : Prop where
  /-- An open port leads to a neighbour that is one link closer. -/
  leads : ∀ f r cls q, f.dst < k.numRouter → r < k.numRouter → f.dst ≠ r →
    Router.meshRoute k r f cls q = true → ∃ r', k.link r q = some r' ∧ r' < k.numRouter ∧
      meshDist k r' f.dst + 1 = meshDist k r f.dst
  /-- Each routing class opens a port. -/
  opens : ∀ f r cls, f.dst < k.numRouter → r < k.numRouter → f.dst ≠ r →
    ∃ q, Router.meshRoute k r f cls q = true
  /-- However a packet chooses, each link takes it one closer. -/
  runs : ∀ f r l, f.dst < k.numRouter → r < k.numRouter → (r :: l).IsChain (MeshHop k f) →
    l.length + meshDist k ((r :: l).getLast (List.cons_ne_nil r l)) f.dst = meshDist k r f.dst
  /-- The last virtual channel, and no other one, is of the second class. -/
  classes : ∀ ovc < k.numVc, ∃ c, Router.rcIndex k ovc = .ok c ∧ (c = 1 ↔ ovc + 1 = k.numVc)
  /-- The second class leaves a row only in the column of the destination. -/
  ordered : ∀ f r q, f.dst ≠ r → Router.meshRoute k r f 1 q = true → q = .up ∨ q = .down →
    r % k.width = f.dst % k.width
  acyclic : ∀ c, ¬ Relation.TransGen (MeshDepends k) c c

/-! ## One hop -/

/-- A router of the mesh is found again by its column and row. -/
theorem mesh_coords {w x y s : ℕ} (hx : x < w) (hs : s = x + w * y) : s % w = x ∧ s / w = y :=
  ((Nat.div_mod_unique (Nat.zero_lt_of_lt hx)).mpr ⟨hs.symm, hx⟩).symm

/-- What an open port is about. -/
theorem meshRoute_cases {cls : Fin 2} {q : Port} (ht : k.topology = .mesh)
    (hd : f.dst < k.numRouter) (hr : r < k.numRouter) (hne : f.dst ≠ r)
    (h : Router.meshRoute k r f cls q = true) :
    ∃ r', k.link r q = some r' ∧ r' < k.numRouter ∧
      ((q = .left ∧ f.dst % k.width < r % k.width ∧ r' % k.width + 1 = r % k.width ∧
          r' / k.width = r / k.width) ∨
        (q = .right ∧ r % k.width < f.dst % k.width ∧ r' % k.width = r % k.width + 1 ∧
          r' / k.width = r / k.width) ∨
        (q = .up ∧ f.dst / k.width < r / k.width ∧ r' % k.width = r % k.width ∧
          r' / k.width + 1 = r / k.width ∧ (cls = 0 ∨ r % k.width = f.dst % k.width)) ∨
        (q = .down ∧ r / k.width < f.dst / k.width ∧ r' % k.width = r % k.width ∧
          r' / k.width = r / k.width + 1 ∧ (cls = 0 ∨ r % k.width = f.dst % k.width))) := by
  have hn := mesh_numRouter ht
  have hw : 0 < k.width := Nat.pos_of_mul_pos_right (hn ▸ Nat.zero_lt_of_lt hr)
  have hx : f.dst % k.width < k.width := Nat.mod_lt _ hw
  have hy : f.dst / k.width < k.width := Nat.div_lt_of_lt_mul (hn ▸ hd)
  have hxr : r % k.width < k.width := Nat.mod_lt _ hw
  have hsplit : r % k.width + k.width * (r / k.width) = r := Nat.mod_add_div r k.width
  unfold Router.meshRoute at h
  simp only [hne, if_false] at h
  cases q with
  | loc => simp at h
  | left =>
      have hlt : f.dst % k.width < r % k.width := by simpa using h
      have hcoords := mesh_coords (w := k.width) (x := r % k.width - 1) (y := r / k.width)
        (s := r - 1)
        (by omega) (by omega)
      refine ⟨r - 1, ?_, by omega, .inl ⟨rfl, hlt, by omega, hcoords.2⟩⟩
      simp only [NocKnobs.link, ht]
      exact if_pos (by omega)
  | right =>
      have hlt : r % k.width < f.dst % k.width := by simpa using h
      have hcoords := mesh_coords (w := k.width) (x := r % k.width + 1) (y := r / k.width)
        (s := r + 1)
        (by omega) (by omega)
      refine ⟨r + 1, ?_, ?_, .inr (.inl ⟨rfl, hlt, hcoords.1, hcoords.2⟩)⟩
      · simp only [NocKnobs.link, ht]
        exact if_pos (by omega)
      · rw [hn] at hr ⊢
        have hrow : r / k.width < k.width := Nat.div_lt_of_lt_mul hr
        calc r + 1 = r % k.width + 1 + k.width * (r / k.width) := by omega
          _ < k.width + k.width * (r / k.width) := by omega
          _ = k.width * (r / k.width + 1) := by rw [Nat.mul_succ, Nat.add_comm]
          _ ≤ k.width * k.width := Nat.mul_le_mul_left _ hrow
  | up =>
      simp only [gt_iff_lt, decide_eq_true_eq] at h
      have hpos : 0 < r / k.width := Nat.zero_lt_of_lt h.1
      have hrow : k.width * (r / k.width) = k.width * (r / k.width - 1) + k.width := by
        rw [← Nat.mul_succ, Nat.succ_eq_add_one, Nat.sub_add_cancel hpos]
      have hcoords := mesh_coords (w := k.width) (x := r % k.width) (y := r / k.width - 1)
        (s := r - k.width)
        hxr (by omega)
      refine ⟨r - k.width, ?_, by omega,
        .inr (.inr (.inl ⟨rfl, h.1, hcoords.1, by omega, h.2⟩))⟩
      simp only [NocKnobs.link, ht]
      exact if_pos (by omega)
  | down =>
      simp only [decide_eq_true_eq] at h
      have hrow : k.width * (r / k.width + 1) = k.width * (r / k.width) + k.width :=
        Nat.mul_succ _ _
      have hcoords := mesh_coords (w := k.width) (x := r % k.width) (y := r / k.width + 1)
        (s := r + k.width)
        hxr (by omega)
      refine ⟨r + k.width, ?_, ?_, .inr (.inr (.inr ⟨rfl, h.1, hcoords.1, hcoords.2, h.2⟩))⟩
      · simp only [NocKnobs.link, ht]
        exact if_pos (by omega)
      · have hfar : k.width * (r / k.width + 2) ≤ k.width * k.width :=
          Nat.mul_le_mul_left _ (by omega)
        have htwo : k.width * (r / k.width + 2) = k.width * (r / k.width + 1) + k.width :=
          Nat.mul_succ _ _
        omega

/-- The coordinate `x` lies on the way from `a` to `d`. -/
def Between (a x d : ℕ) : Prop := (a ≤ x ∧ x ≤ d) ∨ (d ≤ x ∧ x ≤ a)

/-- Lying between two places is transitive. -/
theorem Between.trans {a x z d : ℕ} (h : Between a x d) (h' : Between x z d) : Between a z d := by
  unfold Between at *
  omega

/-- A hop comes one step closer in the mesh and stays between here and the destination. -/
theorem MeshHop.cases (ht : k.topology = .mesh) (hd : f.dst < k.numRouter)
    (hr : r < k.numRouter) (h : MeshHop k f r r') :
    r' < k.numRouter ∧ meshDist k r' f.dst + 1 = meshDist k r f.dst ∧
      Between (r % k.width) (r' % k.width) (f.dst % k.width) ∧
      Between (r / k.width) (r' / k.width) (f.dst / k.width) := by
  obtain ⟨cls, q, hopen, hlink⟩ := h
  have hne : f.dst ≠ r := by
    intro heq
    have hloc : q = .loc := by simpa [Router.meshRoute, heq] using hopen
    simp [hloc, NocKnobs.link, ht] at hlink
  obtain ⟨s, hs, hlt, hcases⟩ := meshRoute_cases ht hd hr hne hopen
  obtain rfl : s = r' := Option.some_inj.mp (hs.symm.trans hlink)
  unfold meshDist Between Nat.dist
  refine ⟨hlt, ?_⟩
  rcases hcases with ⟨-, hx, hx', hy⟩ | ⟨-, hx, hx', hy⟩ | ⟨-, hy, hx, hy', -⟩ |
    ⟨-, hy, hx, hy', -⟩
  · rw [hy]
    omega
  · rw [hy]
    omega
  · rw [hx]
    omega
  · rw [hx]
    omega

/-- Any number of hops stays between here and the destination. -/
theorem mesh_hops_between (ht : k.topology = .mesh) (hd : f.dst < k.numRouter)
    (hr : r < k.numRouter) (h : Relation.ReflTransGen (MeshHop k f) r r') :
    r' < k.numRouter ∧ Between (r % k.width) (r' % k.width) (f.dst % k.width) ∧
      Between (r / k.width) (r' / k.width) (f.dst / k.width) := by
  induction h with
  | refl =>
      unfold Between
      exact ⟨hr, by omega, by omega⟩
  | @tail m s _ hms ih =>
      obtain ⟨hm, hx, hy⟩ := ih
      obtain ⟨hs, -, hx', hy'⟩ := hms.cases ht hd hm
      exact ⟨hs, hx.trans hx', hy.trans hy'⟩

/-- Each link of a packet takes it one closer. -/
theorem mesh_chain_dist (ht : k.topology = .mesh) (hd : f.dst < k.numRouter) (l : List ℕ)
    (hr : r < k.numRouter) (h : (r :: l).IsChain (MeshHop k f)) :
    l.length + meshDist k ((r :: l).getLast (List.cons_ne_nil r l)) f.dst =
      meshDist k r f.dst := by
  induction l generalizing r with
  | nil => simp
  | cons m l ih =>
      obtain ⟨hhop, hrest⟩ := List.isChain_cons_cons.mp h
      obtain ⟨hm, hdist, -⟩ := hhop.cases ht hd hr
      have htail := ih hm hrest
      rw [List.getLast_cons (List.cons_ne_nil m l), List.length_cons]
      omega

/-- Each routing class opens a port for a packet that has to go on. -/
theorem meshRoute_opens (hne : f.dst ≠ r) (cls : Fin 2) :
    ∃ q, Router.meshRoute k r f cls q = true := by
  simp only [Router.meshRoute, hne, if_false]
  rcases lt_trichotomy (r % k.width) (f.dst % k.width) with hx | hx | hx
  · exact ⟨.right, by simpa using hx⟩
  · rcases lt_trichotomy (r / k.width) (f.dst / k.width) with hy | hy | hy
    · exact ⟨.down, by simp [hx, hy]⟩
    · refine absurd ?_ hne
      rw [← Nat.mod_add_div f.dst k.width, ← Nat.mod_add_div r k.width, hx, hy]
    · exact ⟨.up, by simp [hx, hy]⟩
  · exact ⟨.left, by simpa using hx⟩

/-- The class of a virtual channel. -/
theorem rcIndex_mesh (ht : k.topology = .mesh) (hvc : 2 ≤ k.numVc) {ovc : ℕ}
    (hovc : ovc < k.numVc) :
    ∃ c, Router.rcIndex k ovc = .ok c ∧ (c = 1 ↔ ovc + 1 = k.numVc) := by
  have hone : k.numVc ≠ 1 := by omega
  simp only [Router.rcIndex, ht, if_neg hone]
  by_cases hlast : ovc + 1 = k.numVc
  · have hdiv : ovc / (k.numVc - 1) = 1 := by
      rw [show k.numVc - 1 = ovc by omega]
      exact Nat.div_self (by omega)
    exact ⟨1, by simp [hdiv], by simp [hlast]⟩
  · have hdiv : ovc / (k.numVc - 1) = 0 := Nat.div_eq_of_lt (by omega)
    exact ⟨0, by simp [hdiv], by simp [hlast]⟩

/-! ## The channels of the second class -/

/-- The number of a channel: a packet of the second class takes them in increasing order. -/
def meshRank (k : NocKnobs) (c : Chan) : ℕ :=
  match c.p with
  | .right => c.r % k.width
  | .left => k.width - 1 - c.r % k.width
  | .down => k.width + c.r / k.width
  | .up => k.width + (k.width - 1 - c.r / k.width)
  | .loc => 2 * k.width

/-- A packet of the second class at a router: it is at its destination, or the port says in
which coordinate it goes on, and that the row is the last thing to change. -/
theorem MeshAsksFor.cases (ht : k.topology = .mesh) (hd : f.dst < k.numRouter) {c : Chan}
    (hr : c.r < k.numRouter) (h : MeshAsksFor k f c) :
    (c.p = .loc ∧ f.dst = c.r) ∨
    (c.p = .left ∧ f.dst % k.width < c.r % k.width) ∨
    (c.p = .right ∧ c.r % k.width < f.dst % k.width) ∨
    (c.p = .up ∧ f.dst / k.width < c.r / k.width ∧ c.r % k.width = f.dst % k.width) ∨
    (c.p = .down ∧ c.r / k.width < f.dst / k.width ∧ c.r % k.width = f.dst % k.width) := by
  by_cases hdst : f.dst = c.r
  · exact .inl ⟨by simpa [Router.meshRoute, hdst] using h.2, hdst⟩
  · obtain ⟨s, -, -, hcases⟩ := meshRoute_cases ht hd hr hdst h.2
    have hclass {P : Prop} (hor : (1 : Fin 2) = 0 ∨ P) : P := hor.resolve_left (by decide)
    rcases hcases with ⟨hp, hx, -⟩ | ⟨hp, hx, -⟩ | ⟨hp, hy, -, -, hor⟩ | ⟨hp, hy, -, -, hor⟩
    · exact .inr (.inl ⟨hp, hx⟩)
    · exact .inr (.inr (.inl ⟨hp, hx⟩))
    · exact .inr (.inr (.inr (.inl ⟨hp, hy, hclass hor⟩)))
    · exact .inr (.inr (.inr (.inr ⟨hp, hy, hclass hor⟩)))

/-- A channel depends on channels of higher rank only. -/
theorem MeshDepends.rank_lt (ht : k.topology = .mesh) {c c' : Chan} (h : MeshDepends k c c') :
    meshRank k c < meshRank k c' := by
  obtain ⟨f, m, hd, hr, hc, hlink, hhops, hc'⟩ := h
  have hn := mesh_numRouter ht
  have hw : 0 < k.width := Nat.pos_of_mul_pos_right (hn ▸ Nat.zero_lt_of_lt hr)
  have hcol (s : ℕ) : s % k.width < k.width := Nat.mod_lt _ hw
  have hrow {s : ℕ} (hs : s < k.numRouter) : s / k.width < k.width :=
    Nat.div_lt_of_lt_mul (hn ▸ hs)
  have hne : f.dst ≠ c.r := by
    intro heq
    have hloc : c.p = .loc := by simpa [Router.meshRoute, heq] using hc.2
    simp [hloc, NocKnobs.link, ht] at hlink
  obtain ⟨s, hs, hm, hstep⟩ := meshRoute_cases ht hd hr hne hc.2
  obtain rfl : s = m := Option.some_inj.mp (hs.symm.trans hlink)
  obtain ⟨hr', hx, hy⟩ := mesh_hops_between ht hd hm hhops
  have hcol₁ := hcol c.r
  have hcol₂ := hcol c'.r
  have hrow₁ := hrow hr
  have hrow₂ := hrow hr'
  have hfirst := hc.cases ht hd hr
  have hnext := hc'.cases ht hd hr'
  unfold Between at hx hy
  unfold meshRank
  generalize c.r % k.width = x, c.r / k.width = y, s % k.width = x₁, s / k.width = y₁,
    c'.r % k.width = x', c'.r / k.width = y' at *
  rcases hfirst with ⟨-, hdst⟩ | ⟨hp, hlt⟩ | ⟨hp, hlt⟩ | ⟨hp, hlt, hcolumn⟩ |
    ⟨hp, hlt, hcolumn⟩
  · exact absurd hdst hne
  all_goals
    simp only [hp, reduceCtorEq, false_and, true_and, false_or, or_false] at hstep ⊢
    rcases hnext with ⟨hp', hlt'⟩ | ⟨hp', hlt'⟩ | ⟨hp', hlt'⟩ | ⟨hp', hlt'⟩ | ⟨hp', hlt'⟩ <;>
      simp only [hp'] <;> omega

/-- No channel of the mesh depends on itself. -/
theorem meshDepends_acyclic (ht : k.topology = .mesh) (c : Chan) :
    ¬ Relation.TransGen (MeshDepends k) c c := by
  have hrank {a b : Chan} (h : Relation.TransGen (MeshDepends k) a b) :
      meshRank k a < meshRank k b := by
    induction h with
    | single h => exact h.rank_lt ht
    | tail _ h ih => exact ih.trans (h.rank_lt ht)
  exact fun h => lt_irrefl _ (hrank h)

/-! ## The mesh as a whole -/

/-- A mesh that its routers accept routes minimally exactly if it has more than one virtual
channel. -/
theorem mesh_routes_minimal_iff (k : NocKnobs) (ht : k.topology = .mesh) (hvc : 1 ≤ k.numVc) :
    MinimalRouting k ↔ 2 ≤ k.numVc := by
  constructor
  · intro h
    by_contra hlt
    have hone : k.numVc = 1 := by omega
    obtain ⟨c, hc, -⟩ := h.classes 0 (by omega)
    simp [Router.rcIndex, ht, hone] at hc
  · intro htwo
    refine ⟨?_, fun f r cls _ _ hne => meshRoute_opens hne cls,
      fun f r l hd hr h => mesh_chain_dist ht hd l hr h, fun ovc => rcIndex_mesh ht htwo, ?_,
      meshDepends_acyclic ht⟩
    · intro f r cls q hd hr hne hopen
      have hleads := meshRoute_cases ht hd hr hne hopen
      obtain ⟨r', hlink, hr', -⟩ := hleads
      obtain ⟨-, hdist, -⟩ := MeshHop.cases ht hd hr ⟨cls, q, hopen, hlink⟩
      exact ⟨r', hlink, hr', hdist⟩
    · intro f r q hne hopen hq
      simp only [Router.meshRoute, hne, if_false] at hopen
      rcases hq with rfl | rfl
      · simpa using (of_decide_eq_true hopen).2
      · simpa using (of_decide_eq_true hopen).2

/-- A mesh of two by two routers. -/
def meshOfFour (numVc : ℕ) : NocKnobs :=
  { topology := .mesh, numNode := 4, numVc := numVc, linkLatency := 1, linkWidth := 32,
    gpuValidation := false, useRrForNocInsertion := false }

/-- A mesh of four routers with two channels has minimal routes. -/
theorem mesh_routes_minimal_two_channels : MinimalRouting (meshOfFour 2) :=
  (mesh_routes_minimal_iff (meshOfFour 2) rfl (by decide)).mpr (by decide)

/-- With the single virtual channel that the constructor accepts, virtual-channel allocation
divides by zero. -/
theorem mesh_single_channel_divides_by_zero :
    1 ≤ (meshOfFour 1).numVc ∧
    ((Router.new 0).stageVca (meshOfFour 1) 0).toOption.isNone = true ∧
    Router.rcIndex (meshOfFour 1) 0 = .error .divByZero ∧ ¬ MinimalRouting (meshOfFour 1) := by
  refine ⟨by decide, by decide, rfl, fun h => ?_⟩
  obtain ⟨c, hc, -⟩ := h.classes 0 (by decide)
  cases hc

end MacSim.Analysis
