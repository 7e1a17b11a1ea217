import MacSim.Analysis.RingEscape

/-!
# The routes of the ring

The direction of a packet is chosen once, at its source, and the flit carries it.  `Heading`
is what every router on the way sees of it; the links left to go, `linksLeft`, become one
fewer with every hop, and the choice at the source is for the direction with fewer of them.
-/

set_option autoImplicit false

namespace MacSim.Analysis

open MacSim.Model MacSim.Computation

variable {k : NocKnobs} {p : Port} {x y : Place}

/-- The links from router `r` to router `d` of a ring of `n` in the direction `p`. -/
def linksLeft (n : ℕ) (p : Port) (r d : ℕ) : ℕ :=
  match p with
  | .right => if r ≤ d then d - r else d + n - r
  | _ => if d ≤ r then r - d else r + n - d

/-- The packet goes in the direction `p`, and leaves the ring at its destination. -/
structure Heading (k : NocKnobs) (p : Port) (x : Place) : Prop where
  onRing : OnRing k x
  side : p = .left ∨ p = .right
  port : ringPort k x.2 x.1 = if x.1.dst = x.2 then .loc else p

/-! ## One hop -/

/-- No link is left exactly at the destination. -/
theorem linksLeft_eq_zero {n r d : ℕ} (hr : r < n) (hd : d < n) :
    linksLeft n p r d = 0 ↔ r = d := by
  unfold linksLeft
  split <;> split <;> omega

/-- A hop keeps the direction and is one link of the way. -/
theorem Heading.hop (ht : k.topology = .ring) (h : Heading k p x) (hxy : Hop k x y) :
    Heading k p y ∧ y.1.dst = x.1.dst ∧
      linksLeft k.numRouter p y.2 x.1.dst + 1 = linksLeft k.numRouter p x.2 x.1.dst := by
  obtain ⟨hne, hdst, hdir, hstep⟩ := hxy.cases ht h.onRing
  have hport : ringPort k x.2 x.1 = p := by rw [h.port, if_neg hne]
  rw [hport] at hdir hstep
  have hlt := h.onRing.lt
  have hd := h.onRing.dst_lt
  refine ⟨⟨hxy.onRing ht h.onRing, h.side, ?_⟩, hdst, ?_⟩
  · rw [ringPort, hdir]
  · rcases hstep with ⟨rfl, hy⟩ | ⟨rfl, hy⟩
    · rw [hy, slot_prev hlt]
      simp only [linksLeft]
      split_ifs <;> omega
    · rw [hy, slot_next hlt]
      simp only [linksLeft]
      split_ifs <;> omega

/-- A packet that is not at its destination can go on. -/
theorem Heading.exists_hop (ht : k.topology = .ring) (h : Heading k p x) (hne : x.1.dst ≠ x.2) :
    ∃ y, Hop k x y := by
  have hport : ringPort k x.2 x.1 = p := by rw [h.port, if_neg hne]
  have hopen (q : Port) (hq : q = p) :
      (Router.ringRoute k x.2 (Router.new 0) .loc 0 x.1).1 0 q = true :=
    ((ringRoute_eq (Router.new 0) .loc 0).1 q).mpr (hq.trans hport.symm)
  rcases h.side with rfl | rfl
  · exact ⟨(_, (x.2 + k.numRouter - 1) % k.numRouter), Router.new 0, .loc, 0, .left,
      hopen _ rfl, by simp only [NocKnobs.link, ht], rfl⟩
  · exact ⟨(_, (x.2 + 1) % k.numRouter), Router.new 0, .loc, 0, .right,
      hopen _ rfl, by simp only [NocKnobs.link, ht], rfl⟩

/-! ## The way from the source to the destination -/

/-- Along a chain of hops each one crosses a link, towards the destination all the way. -/
theorem Heading.chain (ht : k.topology = .ring) (l : List Place) (h : Heading k p x)
    (hl : (x :: l).IsChain (Hop k)) :
    (∀ y ∈ x :: l, Heading k p y ∧ y.1.dst = x.1.dst) ∧
      l.length + linksLeft k.numRouter p ((x :: l).getLast (List.cons_ne_nil x l)).2 x.1.dst =
        linksLeft k.numRouter p x.2 x.1.dst := by
  induction l generalizing x with
  | nil => simpa using h
  | cons y l ih =>
      obtain ⟨hxy, hrest⟩ := List.isChain_cons_cons.mp hl
      obtain ⟨hy, hdst, hleft⟩ := h.hop ht hxy
      obtain ⟨hall, hlength⟩ := ih hy hrest
      rw [hdst] at hall hlength
      refine ⟨List.forall_mem_cons.mpr ⟨⟨h, rfl⟩, hall⟩, ?_⟩
      rw [List.getLast_cons (List.cons_ne_nil y l), List.length_cons]
      omega

/-- A packet that heads for its destination has a chain of hops there. -/
theorem Heading.exists_chain (ht : k.topology = .ring) (h : Heading k p x) :
    ∃ l, (x :: l).IsChain (Hop k) ∧
      ((x :: l).getLast (List.cons_ne_nil x l)).2 = x.1.dst := by
  -- the induction is on the links that are left
  induction hm : linksLeft k.numRouter p x.2 x.1.dst generalizing x with
  | zero =>
      have hend := (linksLeft_eq_zero h.onRing.lt h.onRing.dst_lt).mp hm
      exact ⟨[], List.isChain_singleton x, by simpa using hend⟩
  | succ m ih =>
      have hne : x.1.dst ≠ x.2 := by
        intro heq
        rw [(linksLeft_eq_zero h.onRing.lt h.onRing.dst_lt).mpr heq.symm] at hm
        exact absurd hm (Nat.succ_ne_zero m).symm
      obtain ⟨y, hxy⟩ := h.exists_hop ht hne
      obtain ⟨hy, hdst, hleft⟩ := h.hop ht hxy
      obtain ⟨l, hl, hlast⟩ := ih hy (by rw [hdst]; omega)
      refine ⟨y :: l, List.isChain_cons_cons.mpr ⟨hxy, hl⟩, ?_⟩
      rw [List.getLast_cons (List.cons_ne_nil y l), hlast, hdst]

/-- The length of the shorter way between two routers. -/
def ringDist (k : NocKnobs) (s d : ℕ) : ℤ :=
  min (((s : ℤ) - d) % k.numRouter) (((d : ℤ) - s) % k.numRouter)

/-- The links left are the distance around the ring in the direction taken. -/
theorem linksLeft_emod {n r d : ℕ} (hr : r < n) (hd : d < n) :
    (linksLeft n .left r d : ℤ) = ((r : ℤ) - d) % n ∧
      (linksLeft n .right r d : ℤ) = ((d : ℤ) - r) % n := by
  have hwrap {a b : ℕ} (ha : a < n) (hb : b < n) :
      ((a : ℤ) - b) % n = if b ≤ a then (a : ℤ) - b else a + n - b := by
    split
    · exact Int.emod_eq_of_lt (by omega) (by omega)
    · rw [← Int.add_emod_right, Int.emod_eq_of_lt (by omega) (by omega)]
      omega
  rw [hwrap hr hd, hwrap hd hr]
  simp only [linksLeft]
  constructor <;> split <;> omega

/-- The direction that the source chooses is one of the shorter way. -/
theorem Injected.heading (h : Injected k x) (hne : x.1.dst ≠ x.2) :
    Heading k (ringPort k x.2 x.1) x ∧
      (linksLeft k.numRouter (ringPort k x.2 x.1) x.2 x.1.dst : ℤ) = ringDist k x.2 x.1.dst := by
  have hlt := h.src_lt
  have hd := h.dst_lt
  refine ⟨⟨h.onRing, ringPort_cases h.onRing hne, by rw [if_neg hne]⟩, ?_⟩
  obtain ⟨hleft, hright⟩ := linksLeft_emod h.src_lt h.dst_lt
  rw [ringDist, ← hleft, ← hright, ringPort, if_neg hne, h.dir]
  simp only [linksLeft]
  split_ifs <;> dsimp only <;> omega

/-- A packet from one router of the ring to another one takes the shorter way: one port is open
at each router, in the same direction all along and to the outside at the destination, which
is where the packet is after as many links as the shorter way has. -/
theorem ring_routes_shortest (k : NocKnobs) (x : Place) (ht : k.topology = .ring)
    (hx : Injected k x) (hne : x.1.dst ≠ x.2) :
    ∃ p, (p = .left ∨ p = .right) ∧
      (∃ l, (x :: l).IsChain (Hop k) ∧
        ((x :: l).getLast (List.cons_ne_nil x l)).2 = x.1.dst) ∧
      ∀ l, (x :: l).IsChain (Hop k) →
        (l.length : ℤ) ≤ ringDist k x.2 x.1.dst ∧
        (((x :: l).getLast (List.cons_ne_nil x l)).2 = x.1.dst ↔
          (l.length : ℤ) = ringDist k x.2 x.1.dst) ∧
        ∀ y ∈ x :: l, ∀ rt ip iv q, (Router.ringRoute k y.2 rt ip iv y.1).1 0 q = true ↔
          q = if y.2 = x.1.dst then .loc else p := by
  obtain ⟨hhead, hdist⟩ := hx.heading hne
  refine ⟨ringPort k x.2 x.1, hhead.side, hhead.exists_chain ht, fun l hl => ?_⟩
  obtain ⟨hall, hlength⟩ := hhead.chain ht l hl
  have hlast := hall _ (List.getLast_mem (List.cons_ne_nil x l))
  have hzero := linksLeft_eq_zero (p := ringPort k x.2 x.1) hlast.1.onRing.lt hx.dst_lt
  refine ⟨by omega, by rw [← hzero]; omega, fun y hy rt ip iv q => ?_⟩
  rw [(ringRoute_eq rt ip iv).1 q, (hall y hy).1.port, (hall y hy).2]
  simp only [eq_comm]

/-- A ring of five routers. -/
def ringOfFive : NocKnobs :=
  { topology := .ring, numNode := 5, numVc := 2, linkLatency := 1, linkWidth := 16
    gpuValidation := false, useRrForNocInsertion := false }

/-- The flits of a packet from router `4` to router `1`. -/
def wrapFlits : List Flit :=
  Router.packetFlits ringOfFive 0
    { id := 7, msgType := .ack, size := 64, msgSrc := 4, msgDst := 1 }

/-- The packet goes across the link from router `4` to router `0`, and is there after two
links. -/
theorem ring_routes_shortest_wrap :
    ∃ f ∈ wrapFlits.head?, ∃ l, ((f, 4) :: l).IsChain (Hop ringOfFive) ∧ l.length = 2 ∧
      (((f, 4) :: l).getLast (List.cons_ne_nil (f, 4) l)).2 = 1 := by
  refine ⟨wrapFlits.head (by decide), by decide, ?_⟩
  obtain ⟨p, -, ⟨l, hl, hlast⟩, hall⟩ := ring_routes_shortest ringOfFive
    (wrapFlits.head (by decide), 4) rfl
    ⟨by decide, by decide, by decide, by decide⟩ (by decide)
  have hdist : ringDist ringOfFive 4 1 = 2 := by decide
  have hlength : (l.length : ℤ) = 2 := ((hall l hl).2.1.mp hlast).trans hdist
  exact ⟨l, hl, by exact_mod_cast hlength, hlast⟩

end MacSim.Analysis
