import MacSim.Analysis.WormOwnership
import MacSim.Computation.Ring

/-!
# The escape channels of the ring

The last two virtual channels of every port of a ring are escape channels.  A packet may take
the first of them at a router that is not beyond its destination and the second at a router
that is not before it, so that a packet changes from one to the other only where it crosses
the link between the last router and router `0`.  `rank` numbers the channels such that every
packet takes escape channels in increasing order, whatever it does in between.

The second part is about the routers: the port that route computation opened for a waiting
head flit stays open, and it leads on and not back.
-/

set_option autoImplicit false

namespace MacSim.Analysis

open MacSim.Model MacSim.Computation

variable {k : NocKnobs} {f : Flit} {r : ℕ} {F G : Fabric}

/-! ## The way of a packet -/

/-- The port that the ring opens for a head flit. -/
def ringPort (k : NocKnobs) (r : ℕ) (f : Flit) : Port :=
  if f.dst = r then .loc
  else
    match f.dir with
    | some d => d
    | none =>
        if (if r > f.dst then (r : ℤ) - f.dst else (r : ℤ) - f.dst + k.numRouter) <
            (if r > f.dst then (f.dst : ℤ) - r + k.numRouter else (f.dst : ℤ) - r) then .left
        else .right

/-- The route of the ring is one port, and it sets the direction of the flit. -/
theorem ringRoute_eq (rt : Router) (p : Port) (v : ℕ) :
    (∀ q, (Router.ringRoute k r rt p v f).1 0 q = true ↔ q = ringPort k r f) ∧
    (Router.ringRoute k r rt p v f).2 = if f.dst = r then f.dir else some (ringPort k r f) := by
  unfold Router.ringRoute ringPort
  by_cases hdst : f.dst = r
  · simp [hdst]
  · simp only [hdst, if_false]
    cases f.dir with
    | some d => simp
    | none =>
        dsimp only
        generalize (if r > f.dst then (r : ℤ) - f.dst else (r : ℤ) - f.dst + k.numRouter) = left
        generalize (if r > f.dst then (f.dst : ℤ) - r + k.numRouter else (f.dst : ℤ) - r) = right
        split <;> simp

/-- The head flit of a packet, at a router. -/
abbrev Place := Flit × ℕ

/-- A packet at its source. -/
structure Injected (k : NocKnobs) (x : Place) : Prop where
  dir : x.1.dir = none
  src : x.1.src = x.2
  src_lt : x.2 < k.numRouter
  dst_lt : x.1.dst < k.numRouter

/-- A packet goes to the next router, through the port that route computation opens. -/
def Hop (k : NocKnobs) (x y : Place) : Prop :=
  ∃ (rt : Router) (ip : Port) (iv : ℕ) (op : Port),
    (Router.ringRoute k x.2 rt ip iv x.1).1 0 op = true ∧ k.link x.2 op = some y.2 ∧
    y.1 = { x.1 with dir := (Router.ringRoute k x.2 rt ip iv x.1).2 }

/-- The escape channels of a port. -/
def Escape (k : NocKnobs) (v : ℕ) : Prop := v + 2 = k.numVc ∨ v + 1 = k.numVc

/-- A packet may ask for the escape channel `c`: its port is open and virtual-channel
allocation does not pass it over. -/
def AsksFor (k : NocKnobs) (x : Place) (c : Chan) : Prop :=
  c.r = x.2 ∧ Escape k c.v ∧ Router.ringVcAllowed k x.2 c.v x.1 = true ∧
    ∃ (rt : Router) (ip : Port) (iv : ℕ), (Router.ringRoute k x.2 rt ip iv x.1).1 0 c.p = true

/-- A packet of some source and some destination can hold the escape channel `c` when it asks
for the escape channel `c'`, at the next router or later. -/
def Depends (k : NocKnobs) (c c' : Chan) : Prop :=
  ∃ x y z : Place, Injected k x ∧ Relation.ReflTransGen (Hop k) x y ∧
    Relation.TransGen (Hop k) y z ∧ AsksFor k y c ∧ AsksFor k z c'

/-- What every place of a packet satisfies. -/
structure OnRing (k : NocKnobs) (x : Place) : Prop where
  lt : x.2 < k.numRouter
  dst_lt : x.1.dst < k.numRouter
  dir : NocKnobs.LegalDir x.1.dir

/-- An injected flit is on the ring. -/
theorem Injected.onRing {x : Place} (h : Injected k x) : OnRing k x :=
  ⟨h.src_lt, h.dst_lt, fun d hd => by simp [h.dir] at hd⟩

/-- A flit that is not at home goes left or right. -/
theorem ringPort_cases {x : Place} (h : OnRing k x) (hne : x.1.dst ≠ x.2) :
    ringPort k x.2 x.1 = .left ∨ ringPort k x.2 x.1 = .right := by
  unfold ringPort
  rw [if_neg hne]
  cases hdir : x.1.dir with
  | some d => exact h.dir d hdir
  | none => exact ite_eq_or_eq _ _ _

/-- A hop in one direction, at a router other than the destination. -/
theorem Hop.cases {x y : Place} (ht : k.topology = .ring) (h : OnRing k x) (hxy : Hop k x y) :
    x.1.dst ≠ x.2 ∧ y.1.dst = x.1.dst ∧ y.1.dir = some (ringPort k x.2 x.1) ∧
    ((ringPort k x.2 x.1 = .left ∧ y.2 = (x.2 + k.numRouter - 1) % k.numRouter) ∨
      (ringPort k x.2 x.1 = .right ∧ y.2 = (x.2 + 1) % k.numRouter)) := by
  obtain ⟨rt, ip, iv, op, hop, hlink, hy⟩ := hxy
  obtain ⟨hopen, hdir⟩ := ringRoute_eq (k := k) (r := x.2) (f := x.1) rt ip iv
  obtain rfl := (hopen op).mp hop
  have hne : x.1.dst ≠ x.2 := by
    intro heq
    rw [ringPort, if_pos heq] at hlink
    simp [NocKnobs.link, ht] at hlink
  rw [if_neg hne] at hdir
  refine ⟨hne, by rw [hy], by rw [hy, hdir], ?_⟩
  rcases ringPort_cases h hne with hp | hp
  · rw [hp] at hlink
    simp only [NocKnobs.link, ht, Option.some.injEq] at hlink
    exact .inl ⟨hp, hlink.symm⟩
  · rw [hp] at hlink
    simp only [NocKnobs.link, ht, Option.some.injEq] at hlink
    exact .inr ⟨hp, hlink.symm⟩

/-- A hop stays on the ring. -/
theorem Hop.onRing {x y : Place} (ht : k.topology = .ring) (h : OnRing k x) (hxy : Hop k x y) :
    OnRing k y := by
  obtain ⟨hne, hdst, hdir, hport⟩ := hxy.cases ht h
  have hpos : 0 < k.numRouter := Nat.zero_lt_of_lt h.lt
  refine ⟨?_, by rw [hdst]; exact h.dst_lt, ?_⟩
  · rcases hport with ⟨-, hy⟩ | ⟨-, hy⟩
    · rw [hy]
      exact Nat.mod_lt _ hpos
    · rw [hy]
      exact Nat.mod_lt _ hpos
  · intro d hd
    rw [hdir] at hd
    rw [← Option.some_inj.mp hd]
    exact ringPort_cases h hne

/-! ## The order of the escape channels -/

/-- How far a packet that goes in the direction `p` to `dst` has come at router `r`. -/
def progress (n : ℕ) (p : Port) (dst r : ℕ) : ℕ :=
  match p with
  | .right => if dst < r then r else n + r
  | _ => if r < dst then n - 1 - r else n + (n - 1 - r)

/-- The number of a channel; the local channels come last. -/
def rank (k : NocKnobs) (c : Chan) : ℕ :=
  match c.p with
  | .right => if c.v + 1 = k.numVc then c.r else k.numRouter + c.r
  | .left =>
      if c.v + 2 = k.numVc then k.numRouter - 1 - c.r else k.numRouter + (k.numRouter - 1 - c.r)
  | _ => 2 * k.numRouter

/-- A hop makes progress on the ring. -/
theorem Hop.progress_lt {x y : Place} (ht : k.topology = .ring) (h : OnRing k x)
    (hxy : Hop k x y) :
    progress k.numRouter (ringPort k x.2 x.1) x.1.dst x.2 <
      progress k.numRouter (ringPort k x.2 x.1) x.1.dst y.2 := by
  obtain ⟨hne, -, -, hport⟩ := hxy.cases ht h
  have hlt := h.lt
  have hdst := h.dst_lt
  rcases hport with ⟨hp, hy⟩ | ⟨hp, hy⟩
  · rw [hp]
    rw [hy, slot_prev hlt]
    simp only [progress]
    split_ifs <;> omega
  · rw [hp]
    rw [hy, slot_next hlt]
    simp only [progress]
    split_ifs <;> omega

/-- A packet keeps its direction and comes nearer with every hop. -/
theorem hops_progress {x y : Place} (ht : k.topology = .ring) (h : OnRing k x)
    (hxy : Relation.TransGen (Hop k) x y) :
    x.1.dst ≠ x.2 ∧ OnRing k y ∧ y.1.dst = x.1.dst ∧ y.1.dir = some (ringPort k x.2 x.1) ∧
    progress k.numRouter (ringPort k x.2 x.1) x.1.dst x.2 <
      progress k.numRouter (ringPort k x.2 x.1) x.1.dst y.2 := by
  induction hxy with
  | single hxy =>
      obtain ⟨hne, hdst, hdir, -⟩ := hxy.cases ht h
      exact ⟨hne, hxy.onRing ht h, hdst, hdir, hxy.progress_lt ht h⟩
  | @tail y z _ hyz ih =>
      obtain ⟨hne, hy, hdst, hdir, hlt⟩ := ih
      obtain ⟨hney, hdst', hdir', -⟩ := hyz.cases ht hy
      have hport : ringPort k y.2 y.1 = ringPort k x.2 x.1 := by
        rw [ringPort, if_neg hney, hdir]
      have hlt' := hyz.progress_lt ht hy
      rw [hport, hdst] at hlt'
      exact ⟨hne, hyz.onRing ht hy, hdst'.trans hdst, hdir'.trans (by rw [hport]),
        hlt.trans hlt'⟩

/-- A flit asks for a channel of its own port. -/
theorem AsksFor.port {x : Place} {c : Chan} (h : AsksFor k x c) :
    c.p = ringPort k x.2 x.1 := by
  obtain ⟨-, -, -, rt, ip, iv, hopen⟩ := h
  exact ((ringRoute_eq rt ip iv).1 c.p).mp hopen

/-- The number of an escape channel that a packet asks for is how far it has come. -/
theorem AsksFor.rank_eq {x : Place} {c : Chan} (hx : OnRing k x) (h : AsksFor k x c) :
    (x.1.dst = x.2 ∧ rank k c = 2 * k.numRouter) ∨
    (x.1.dst ≠ x.2 ∧
      rank k c = progress k.numRouter (ringPort k x.2 x.1) x.1.dst x.2) := by
  have hport := h.port
  obtain ⟨hr, hesc, hallowed, -⟩ := h
  by_cases hdst : x.1.dst = x.2
  · refine .inl ⟨hdst, ?_⟩
    rw [ringPort, if_pos hdst] at hport
    rw [rank, hport]
  · refine .inr ⟨hdst, ?_⟩
    -- the first escape channel is for routers before the destination, the second for those after
    have hside : (c.v + 2 = k.numVc → x.2 < x.1.dst) ∧ (c.v + 1 = k.numVc → x.1.dst < x.2) := by
      unfold Router.ringVcAllowed at hallowed
      constructor
      · intro hv
        rw [if_neg (by omega), if_pos (by omega)] at hallowed
        simp at hallowed
        omega
      · intro hv
        rw [if_neg (by omega), if_neg (by omega), if_pos (by omega)] at hallowed
        simp at hallowed
        omega
    rcases ringPort_cases hx hdst with hp | hp
    · rw [rank, hport, hp, hr]
      simp only [progress]
      rcases hesc with hv | hv
      · rw [if_pos hv, if_pos (hside.1 hv)]
      · have := hside.2 hv
        rw [if_neg (by omega), if_neg (by omega)]
    · rw [rank, hport, hp, hr]
      simp only [progress]
      rcases hesc with hv | hv
      · have := hside.1 hv
        rw [if_neg (by omega), if_neg (by omega)]
      · rw [if_pos hv, if_pos (hside.2 hv)]

/-- A channel depends on channels of higher rank only. -/
theorem Depends.rank_lt {c c' : Chan} (ht : k.topology = .ring) (h : Depends k c c') :
    rank k c < rank k c' := by
  obtain ⟨x, y, z, hx, hxy, hyz, hc, hc'⟩ := h
  have hy : OnRing k y := by
    clear hyz hc
    induction hxy with
    | refl => exact hx.onRing
    | tail _ hyz ih => exact hyz.onRing ht ih
  obtain ⟨hne, hz, hdst, hdir, hlt⟩ := hops_progress ht hy hyz
  have hcy := (hc.rank_eq hy).resolve_left fun h => hne h.1
  rw [hcy.2]
  rcases hc'.rank_eq hz with ⟨hend, hrank⟩ | ⟨hon, hrank⟩
  · rw [hrank]
    have hlt := hy.lt
    unfold progress
    split <;> split_ifs <;> omega
  · have hport : ringPort k z.2 z.1 = ringPort k y.2 y.1 := by
      rw [ringPort, if_neg hon, hdir]
    rw [hrank, hport, hdst]
    exact hlt

/-- No chain of dependencies comes back to its channel. -/
theorem depends_acyclic (ht : k.topology = .ring) (c : Chan) :
    ¬ Relation.TransGen (Depends k) c c := by
  have hrank {a b : Chan} (h : Relation.TransGen (Depends k) a b) : rank k a < rank k b := by
    induction h with
    | single h => exact h.rank_lt ht
    | tail _ h ih => exact ih.trans (h.rank_lt ht)
  exact fun h => lt_irrefl _ (hrank h)

/-! ## Waiting head flits -/

/-- The front flit of an input channel of router `r`: while it waits, the one port that is
open for it is the local one at its destination and that of its direction elsewhere; once it
has an output channel on a port, it goes in the direction of that port. -/
def FrontDirected (r : ℕ) (inp : List Flit) (route : Port → Bool) (outPort : Option Port) :
    Prop :=
  ∀ f ∈ inp.head?,
    (f.state = .rc → ∃ op, (∀ q, route q = true ↔ q = op) ∧
      ((f.dst = r ∧ op = .loc) ∨ (f.dst ≠ r ∧ op ≠ .loc ∧ f.dir = some op))) ∧
    (f.head = true → f.state = .vca ∨ f.state = .sa → ∀ op, outPort = some op → op ≠ .loc →
      f.dir = some op)

/-- Head flits in buffers of a port come from, or go in, its direction. -/
structure Directed (F : Fabric) : Prop where
  front : ∀ i, FrontDirected i.r (F.inp i) (F.route i) (F.outPort i)
  out : ∀ c, c.p ≠ .loc → ∀ f ∈ F.out c, f.head = true → f.dir = some c.p
  inp : ∀ i, i.p ≠ .loc → ∀ f ∈ F.inp i, f.head = true → f.dir = some i.p.opposite

/-- A front that has not been routed has its direction. -/
theorem frontDirected_of_ib {inp : List Flit} {route : Port → Bool} {outPort : Option Port}
    (h : ∀ f ∈ inp.head?, f.state = .ib) : FrontDirected r inp route outPort := by
  intro f hf
  have hst := h f hf
  refine ⟨fun hrc => ?_, fun _ hst' => ?_⟩
  · exact (nomatch hst.symm.trans hrc)
  · rw [hst] at hst'
    exact hst'.elim (fun h => (nomatch h)) (fun h => (nomatch h))

/-- Flits in state `IB` arrive behind the front. -/
theorem FrontDirected.append {inp l : List Flit} {route : Port → Bool} {outPort : Option Port}
    (h : FrontDirected r inp route outPort) (hl : ∀ f ∈ l, f.state = .ib) :
    FrontDirected r (inp ++ l) route outPort := by
  cases inp with
  | cons x xs => exact h
  | nil => exact frontDirected_of_ib fun f hf => hl f (List.mem_of_mem_head? hf)

/-- The empty fabric is directed. -/
theorem directed_empty : Directed Fabric.empty where
  front _ := frontDirected_of_ib fun _ hf => (nomatch hf)
  out _ _ _ hf := (nomatch hf)
  inp _ _ _ hf := (nomatch hf)

/-- The front flit of one channel is rewritten. -/
theorem Directed.rewrite {i : Chan} {f g : Flit} {fs : List Flit} (h : Directed F)
    (hb : F.inp i = f :: fs) (hinp : G.inp = Function.update F.inp i (g :: fs))
    (hout : G.out = F.out) (hhead : g.head = f.head)
    (hdir : i.p ≠ .loc → g.head = true → g.dir = f.dir)
    (hroute : ∀ j, j ≠ i → G.route j = F.route j)
    (hport : ∀ j, j ≠ i → G.outPort j = F.outPort j)
    (hfront : FrontDirected i.r (g :: fs) (G.route i) (G.outPort i)) : Directed G where
  front j := by
    rw [hinp]
    by_cases hj : j = i
    · rw [hj, Function.update_self]
      exact hfront
    · rw [Function.update_of_ne hj, hroute j hj, hport j hj]
      exact h.front j
  out := by
    rw [hout]
    exact h.out
  inp := by
    intro j hp
    rw [hinp]
    by_cases hj : j = i
    · subst hj
      rw [Function.update_self]
      have hold := h.inp j hp
      rw [hb] at hold
      refine List.forall_mem_cons.mpr ⟨fun hg => ?_, fun x hx => hold x (by simp [hx])⟩
      rw [hdir hp hg]
      exact hold f (by simp) (hhead ▸ hg)
    · rw [Function.update_of_ne hj]
      exact h.inp j hp

/-- Computing a route keeps the fabric directed. -/
theorem Directed.computeRoute {i : Chan} {fs : List Flit} {enabled : Port → Bool}
    {dir : Option Port} (h : Directed F) (hb : F.inp i = f :: fs)
    (hring : NocKnobs.RingRouted i.r f enabled dir) (hhead : f.head = true) :
    Directed { F with
      inp := Function.update F.inp i ({ f with state := .rc, dir := dir } :: fs)
      route := Function.update F.route i enabled } := by
  obtain ⟨op, hopen, hcase⟩ := hring
  refine h.rewrite hb rfl rfl rfl ?_ (fun j hj => Function.update_of_ne hj _ _) (fun _ _ => rfl) ?_
  · intro hp _
    -- the direction of a flit that came over a link is set
    have hold : f.dir = some i.p.opposite := h.inp i hp f (by simp [hb]) hhead
    rcases hcase with ⟨-, -, hdir⟩ | ⟨-, -, hdir, hkeep⟩
    · exact hdir
    · show dir = f.dir
      rw [hdir, hold, hkeep _ hold]
  · intro g hg
    obtain rfl : { f with state := .rc, dir := dir } = g := by simpa using hg
    refine ⟨fun _ => ⟨op, ?_, ?_⟩, fun _ hst => ?_⟩
    · intro q
      show Function.update F.route i enabled i q = true ↔ _
      rw [Function.update_self]
      exact hopen q
    · rcases hcase with ⟨hdst, hop, -⟩ | ⟨hdst, hop, hdir, -⟩
      · exact .inl ⟨hdst, hop⟩
      · exact .inr ⟨hdst, hop, hdir⟩
    · exact hst.elim (fun h => (nomatch h)) (fun h => (nomatch h))

/-- Granting a channel in the direction of the flit keeps the fabric directed. -/
theorem Directed.grantVc {i c : Chan} {fs : List Flit} (h : Directed F) (hb : F.inp i = f :: fs)
    (hst : f.state = .rc) (hroute : F.route i c.p = true) (hinp : G.inp =
      Function.update F.inp i ({ f with state := .vca } :: fs)) (hout : G.out = F.out)
    (hG : G.route = F.route) (hport : G.outPort = Function.update F.outPort i (some c.p)) :
    Directed G := by
  have hfront := h.front i
  rw [hb] at hfront
  obtain ⟨op, hopen, hcase⟩ := (hfront f rfl).1 hst
  refine h.rewrite hb hinp hout rfl (fun _ _ => rfl) (fun j _ => by rw [hG])
    (fun j hj => by rw [hport, Function.update_of_ne hj]) ?_
  intro g hg
  obtain rfl : { f with state := .vca } = g := by simpa using hg
  refine ⟨fun hrc => (nomatch hrc), fun _ _ q hq hloc => ?_⟩
  rw [hport, Function.update_self] at hq
  obtain rfl := Option.some_inj.mp hq
  obtain rfl := (hopen c.p).mp hroute
  rcases hcase with ⟨-, hop⟩ | ⟨-, -, hdir⟩
  · exact absurd hop hloc
  · exact hdir

/-- Granting the switch keeps the fabric directed. -/
theorem Directed.grantSwitch {i : Chan} {fs : List Flit} (h : Directed F)
    (hb : F.inp i = f :: fs)
    (hst : f.head = true ∧ f.state = .vca ∨ f.head = false ∧ f.state = .ib) :
    Directed { F with inp := Function.update F.inp i ({ f with state := .sa } :: fs) } := by
  have hfront := h.front i
  rw [hb] at hfront
  refine h.rewrite hb rfl rfl rfl (fun _ _ => rfl) (fun _ _ => rfl) (fun _ _ => rfl) ?_
  intro g hg
  obtain rfl : { f with state := .sa } = g := by simpa using hg
  refine ⟨fun hrc => (nomatch hrc), fun hhead _ => ?_⟩
  rcases hst with ⟨-, hvca⟩ | ⟨hbody, -⟩
  · exact (hfront f rfl).2 hhead (.inl hvca)
  · exact (nomatch hbody.symm.trans hhead)

/-- The front flit crosses the switch to the channel that it names. -/
theorem Directed.cross {i c : Chan} {fs : List Flit} (h : Directed F) (hn : F.Names i c)
    (hb : F.inp i = f :: fs) (hst : f.state = .sa) (hqueued : ∀ g ∈ fs.head?, g.state = .ib)
    (hinp : G.inp = Function.update F.inp i fs)
    (hout : G.out = Function.update F.out c (F.out c ++ [{ f with state := .st }]))
    (hroute : G.route = F.route) (hport : ∀ j, j ≠ i → G.outPort j = F.outPort j) :
    Directed G where
  front j := by
    rw [hinp, hroute]
    by_cases hj : j = i
    · rw [hj, Function.update_self]
      exact frontDirected_of_ib hqueued
    · rw [Function.update_of_ne hj, hport j hj]
      exact h.front j
  out d hd := by
    rw [hout]
    by_cases hdc : d = c
    · subst hdc
      rw [Function.update_self]
      intro g hg hhead
      rcases List.mem_append.mp hg with hg | hg
      · exact h.out d hd g hg hhead
      · obtain rfl := List.mem_singleton.mp hg
        have hfront := h.front i
        rw [hb] at hfront
        exact (hfront f rfl).2 hhead (.inr hst) d.p hn.2.1 hd
    · rw [Function.update_of_ne hdc]
      exact h.out d hd
  inp j hp := by
    rw [hinp]
    by_cases hj : j = i
    · subst hj
      rw [Function.update_self]
      exact fun g hg => h.inp j hp g (by simp [hb, hg])
    · rw [Function.update_of_ne hj]
      exact h.inp j hp

/-- Flits leave an output channel from the front. -/
theorem Directed.leave {c : Chan} {fs : List Flit} (h : Directed F) (hb : F.out c = f :: fs) :
    ∀ d, d.p ≠ .loc → ∀ g ∈ Function.update F.out c fs d, g.head = true → g.dir = some d.p := by
  intro d hd g hg
  rw [Function.update_apply] at hg
  split at hg
  · rename_i hdc
    subst hdc
    exact h.out d hd g (by simp [hb, hg])
  · exact h.out d hd g hg

/-- A flit that is sent on in its direction keeps the fabric directed. -/
theorem Directed.forward {c d : Chan} {g : Flit} {fs : List Flit} (h : Directed F)
    (hb : F.out c = f :: fs) (hp : c.p ≠ .loc) (hd : k.down c = some d) (hst : g.state = .ib)
    (hhead : g.head = f.head) (hdir : g.dir = f.dir)
    (hinp : G.inp = Function.update F.inp d (F.inp d ++ [g]))
    (hout : G.out = Function.update F.out c fs) (hroute : G.route = F.route)
    (hport : G.outPort = F.outPort) : Directed G where
  front j := by
    rw [hinp, hroute, hport]
    by_cases hj : j = d
    · rw [hj, Function.update_self]
      refine (h.front d).append fun x hx => ?_
      rw [List.mem_singleton.mp hx, hst]
    · rw [Function.update_of_ne hj]
      exact h.front j
  out := by
    rw [hout]
    exact h.leave hb
  inp j hj := by
    rw [hinp]
    by_cases hjd : j = d
    · subst hjd
      rw [Function.update_self]
      intro x hx hhx
      rcases List.mem_append.mp hx with hx | hx
      · exact h.inp j hj x hx hhx
      · obtain rfl := List.mem_singleton.mp hx
        have hf := h.out c hp f (by simp [hb]) (hhead ▸ hhx)
        obtain ⟨q, -, hq⟩ := Option.map_eq_some_iff.mp hd
        have hopp : j.p.opposite = c.p := by
          rw [← hq]
          cases c.p <;> rfl
        rw [hdir, hf, hopp]
    · rw [Function.update_of_ne hjd]
      exact h.inp j hj

/-- The flits of a new packet are to be routed. -/
theorem packetFlits_ib {cycle : Counter} {req : NocReq} :
    ∀ f ∈ Router.packetFlits k cycle req, f.state = .ib := by
  intro f hf
  obtain ⟨j, -, rfl⟩ := List.mem_map.mp hf
  rfl

/-- Each step keeps the fabric of a ring directed. -/
theorem Directed.step (ht : k.topology = .ring) (hF : FabricInv k F) (h : Directed F)
    (hs : F.Step k G) : Directed G := by
  obtain ⟨hL, -, w, hW⟩ := hF
  have queued {i : Chan} {f : Flit} {fs : List Flit} (hb : F.inp i = f :: fs) :
      ∀ g ∈ fs.head?, g.state = .ib := by
    have hin := hW.in_ok i
    rw [hb] at hin
    exact hin.head_queued
  have other {i : Chan} {f : Flit} (j : Chan) (hj : j ≠ i) :
      Fabric.dropped F.outPort i f j = F.outPort j := by
    unfold Fabric.dropped
    split
    · exact Function.update_of_ne hj _ _
    · rfl
  cases hs with
  | accept | creditBack => exact ⟨h.front, h.out, h.inp⟩
  | inject c req rest cycle hc hp hw =>
      refine ⟨fun j => ?_, h.out, fun j hj => ?_⟩
      · show FrontDirected j.r (Function.update F.inp c _ j) _ _
        by_cases hjc : j = c
        · rw [hjc, Function.update_self]
          exact (h.front c).append packetFlits_ib
        · rw [Function.update_of_ne hjc]
          exact h.front j
      · have hjc : j ≠ c := by
          rintro rfl
          exact hj hp
        show ∀ f ∈ Function.update F.inp c _ j, _
        rw [Function.update_of_ne hjc]
        exact h.inp j hj
  | computeRoute i f fs enabled dir hi hb hst hroute hdir hhead hring =>
      exact h.computeRoute hb (hring (hL.inp i f (by simp [hb])) ht) hhead
  | grantVc i c f fs hi hc hr hb hst hroute havail =>
      exact h.grantVc hb hst hroute rfl rfl rfl rfl
  | grantSwitch i f fs hi hb hst => exact h.grantSwitch hb hst
  | crossLocal i c f fs hi hn hb hst hp =>
      exact h.cross hn hb hst (queued hb) rfl rfl rfl other
  | cross i c u f fs rdy hi hn hb hst hp hu =>
      exact h.cross hn hb hst (queued hb) rfl rfl rfl other
  | eject c f fs hc hb hp => exact ⟨h.front, h.leave hb, h.inp⟩
  | forward c d f fs rdy hc hb hp hd hcr =>
      exact h.forward (g := { f with state := .ib, rdyCycle := rdy }) hb hp hd rfl rfl rfl rfl rfl
        rfl rfl

/-- The invariants of a ring. -/
def RingInv (k : NocKnobs) (F : Fabric) : Prop := FabricInv k F ∧ Directed F

/-- Every reachable ring keeps its invariant. -/
theorem ringInv_reachable (ht : k.topology = .ring) {net : Network} (h : net.Reachable k) :
    RingInv k (net.fabric k) := by
  refine reachable_invariant ⟨fabricInv_empty, directed_empty⟩ (fun F G hF hs => ?_) h
  exact ⟨hF.1.step hs, hF.2.step ht hF.1 hs⟩

/-! ## The result -/

/-- One of the two escape channels is for a packet at any router. -/
theorem exists_escape_allowed (hvc : 2 ≤ k.numVc) (r : ℕ) (f : Flit) :
    ∃ v, Escape k v ∧ v < k.numVc ∧ Router.ringVcAllowed k r v f = true := by
  unfold Router.ringVcAllowed
  by_cases hr : r > f.dst
  · refine ⟨k.numVc - 1, .inr (by omega), by omega, ?_⟩
    rw [if_neg (by omega), if_neg (by omega), if_pos (by omega)]
    simp
    omega
  · refine ⟨k.numVc - 2, .inl (by omega), by omega, ?_⟩
    rw [if_neg (by omega), if_pos (by omega)]
    simpa using hr

/-- **The escape channels of a ring are free of deadlock.**  The dependencies between escape
channels, over all sources and destinations, have no cycle; and in every state that a ring
reaches, virtual-channel allocation accepts a waiting head flit for an escape channel of a
port, which is among the candidates of that port unless the packet was sent by the router to
itself. -/
theorem ring_escape (k : NocKnobs) (ht : k.topology = .ring) (hvc : 2 ≤ k.numVc) :
    (∀ c, ¬ Relation.TransGen (Depends k) c c) ∧
    ∀ net : Network, net.Reachable k → ∀ r p v f, p ∈ k.ports → v < k.numVc →
      (net.router r).front p v = some f → f.head = true → f.state = .rc →
      ∃ op ov, Escape k ov ∧ ov < k.numVc ∧
        (net.router r).vcaEligible k r 0 op ov p v = some f ∧
        (p ≠ .loc ∨ f.dst ≠ r → (p, v) ∈ Router.candidates k op) := by
  refine ⟨depends_acyclic ht, ?_⟩
  intro net hnet r p v f hp hv hfront hhead hst
  obtain ⟨-, hdir⟩ := ringInv_reachable ht hnet
  obtain ⟨fs, hb⟩ := front_eq_some.mp hfront
  have hbuf : (net.fabric k).inp ⟨r, p, v⟩ = f :: fs := hb
  have hdirected := hdir.front ⟨r, p, v⟩
  rw [hbuf] at hdirected
  obtain ⟨op, hopen, hcase⟩ := (hdirected f rfl).1 hst
  obtain ⟨ov, hesc, hov, hallowed⟩ := exists_escape_allowed hvc r f
  refine ⟨op, ov, hesc, hov, ?_, fun hself => ?_⟩
  · have hroute : (net.router r).route p v 0 op = true := by
      have husable : (net.router r).usableRoute k p v op = true := (hopen op).mpr rfl
      simpa [Router.usableRoute, ht] using husable
    rw [Router.vcaEligible, if_pos hroute, hfront]
    simp [ht, hallowed, hhead, hst]
  · have hne : p ≠ op := by
      rcases hcase with ⟨hdst, rfl⟩ | ⟨-, hloc, hd⟩
      · exact hself.resolve_right fun h => h hdst
      · rintro rfl
        have hin := hdir.inp ⟨r, p, v⟩ hloc f (by simp [hbuf]) hhead
        have hopp := Option.some_inj.mp (hd.symm.trans hin)
        cases p <;> simp [Port.opposite] at hopp hloc
    rw [Router.candidates, List.mem_flatMap]
    refine ⟨p, List.mem_filter.mpr ⟨hp, by simpa using hne⟩, ?_⟩
    exact List.mem_map.mpr ⟨v, List.mem_range.mpr hv, rfl⟩

/-- A line of data, from router `0` to router `1`. -/
def fillReq : NocReq := { id := 7, msgType := .fill, size := 64, msgSrc := 0, msgDst := 1 }

/-- The ring of two routers with three such packets accepted at router `0`. -/
def threeSends : Network :=
  ((((Network.new fun _ => 0).send fillReq 0 1).2.send fillReq 0 1).2.send fillReq 0 1).2

/-- Three packets at router `0` of two: the third one waits while the first one has the escape
channel that both may take. -/
theorem ring_escape_twoRing :
    (∀ c, ¬ Relation.TransGen (Depends twoRing) c c) ∧
    ∃ net f, Network.Reachable twoRing net ∧ (net.router 0).front .loc 1 = some f ∧
      f.state = .rc ∧ ∃ op ov, Escape twoRing ov ∧
        (net.router 0).vcaEligible twoRing 0 0 op ov .loc 1 = some f := by
  obtain ⟨hacyclic, hescape⟩ := ring_escape twoRing rfl (by decide)
  refine ⟨hacyclic, ?_⟩
  have hsent : threeSends.Reachable twoRing :=
    (((Network.Reachable.new fun _ => 0).send _ fillReq 0 1 (by decide) (by decide)).send _
      fillReq 0 1 (by decide) (by decide)).send _ fillReq 0 1 (by decide) (by decide)
  have hrun : ((threeSends.ticks twoRing [(0, 0), (0, 1)]).toOption.map fun net =>
      ((net.router 0).front .loc 1).map fun f => (f.state, f.head, f.dst)) =
      some (some (.rc, true, 1)) := by decide +kernel
  obtain ⟨net, hnet, hf⟩ := exists_ok_of_observed hrun
  have hreach := hsent.ticks (by decide) hnet
  obtain ⟨f, hfront, hx⟩ := Option.map_eq_some_iff.mp hf
  simp only [Prod.mk.injEq] at hx
  obtain ⟨op, ov, hesc, -, helig, -⟩ := hescape net hreach 0 .loc 1 f (by decide) (by decide)
    hfront hx.2.1 hx.1
  exact ⟨net, f, hreach, hfront, hx.1, op, ov, hesc, helig⟩

end MacSim.Analysis
