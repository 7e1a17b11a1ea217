import MacSim.Model.Fabric

/-!
# The channels of a worm

A packet crosses a router as a worm: its head takes an output channel, the other flits follow
through the input channel that names it, and the tail gives the name back at the switch and
the output channel at the link.  This file is about one channel at a time.  `OutOk` says that
an output channel is free, held by a packet whose input channel still names it, or held by a
packet whose tail is the last flit in the buffer.  `InOk` is about an input channel and the
pipeline states of its flits.  Both come with one lemma for each thing that can happen to the
channel.
-/

set_option autoImplicit false

namespace MacSim.Analysis

open MacSim.Model MacSim.Computation

variable {k : NocKnobs}

/-! ## Flits are legal -/

/-- All flits are as they were made, up to their pipeline state. -/
structure FlitsLegal (k : NocKnobs) (F : Fabric) : Prop where
  inp : ∀ i, ∀ f ∈ F.inp i, k.Legal f
  out : ∀ c, ∀ f ∈ F.out c, k.Legal f
  released : ∀ r v, ∀ f ∈ F.released r v, k.Legal f
  waiting : ∀ r, ∀ req ∈ F.waiting r, req.msgDst < k.numRouter

/-- A packet has a flit. -/
theorem numFlit_pos (req : NocReq) : 0 < k.numFlit req := by
  unfold NocKnobs.numFlit
  split
  · exact Nat.add_pos_left Nat.one_pos _
  · exact Nat.one_pos

/-- The flits of a packet to a router of the network are legal. -/
theorem legal_packetFlits {cycle : Counter} {req : NocReq} (h : req.msgDst < k.numRouter) :
    ∀ f ∈ Router.packetFlits k cycle req, k.Legal f := by
  intro f hf
  simp only [Router.packetFlits, List.mem_map, List.mem_range] at hf
  obtain ⟨j, hj, rfl⟩ := hf
  exact ⟨rfl, h, hj, by simp, by simp, fun d hd => by simp at hd⟩

/-- The pipeline state and the ready cycle are not part of legality, and a direction may be
replaced by a legal one. -/
theorem legal_restate {f : Flit} (h : k.Legal f) (s : FlitState) {dir : Option Port}
    (hdir : NocKnobs.LegalDir dir) (rdy : Counter) :
    k.Legal { f with state := s, dir := dir, rdyCycle := rdy } :=
  ⟨h.dst_eq, h.dst_lt, h.id_lt, h.head_iff, h.tail_iff, hdir⟩

/-- The empty fabric holds legal flits. -/
theorem flitsLegal_empty : FlitsLegal k Fabric.empty :=
  ⟨by simp [Fabric.empty], by simp [Fabric.empty], by simp [Fabric.empty], by simp [Fabric.empty]⟩

/-- Each step of the fabric keeps the flits legal. -/
theorem FlitsLegal.step {F G : Fabric} (hF : FlitsLegal k F) (hs : F.Step k G) :
    FlitsLegal k G := by
  have front {i : Chan} {f : Flit} {fs : List Flit} (hb : F.inp i = f :: fs) :
      k.Legal f ∧ ∀ g ∈ fs, k.Legal g :=
    ⟨hF.inp i f (by simp [hb]), fun g hg => hF.inp i g (by simp [hb, hg])⟩
  have push {fs : List Flit} {g : Flit} (hfs : ∀ x ∈ fs, k.Legal x) (hg : k.Legal g) :
      ∀ x ∈ fs ++ [g], k.Legal x := by
    intro x hx
    rcases List.mem_append.mp hx with hx | hx
    · exact hfs x hx
    · exact List.mem_singleton.mp hx ▸ hg
  cases hs with
  | accept r req hr hdst =>
      refine ⟨hF.inp, hF.out, hF.released, forall_mem_update hF.waiting ?_⟩
      intro q hq
      rcases List.mem_append.mp hq with hq | hq
      · exact hF.waiting r q hq
      · exact List.mem_singleton.mp hq ▸ hdst
  | inject c req rest cycle hc hp hw =>
      have hreq : req.msgDst < k.numRouter := hF.waiting c.r req (by simp [hw])
      refine ⟨forall_mem_update hF.inp ?_, hF.out, hF.released, forall_mem_update hF.waiting ?_⟩
      · intro f hf
        rcases List.mem_append.mp hf with hf | hf
        · exact hF.inp c f hf
        · exact legal_packetFlits hreq f hf
      · exact fun q hq => hF.waiting c.r q (by simp [hw, hq])
  | computeRoute i f fs enabled dir hi hb hst hroute hdir hhead hring =>
      obtain ⟨hf, hfs⟩ := front hb
      refine ⟨forall_mem_update hF.inp ?_, hF.out, hF.released, hF.waiting⟩
      exact List.forall_mem_cons.mpr ⟨legal_restate hf .rc (hdir hf) f.rdyCycle, hfs⟩
  | grantVc i c f fs hi hc hr hb hst hroute havail =>
      obtain ⟨hf, hfs⟩ := front hb
      refine ⟨forall_mem_update hF.inp ?_, hF.out, hF.released, hF.waiting⟩
      exact List.forall_mem_cons.mpr ⟨legal_restate hf .vca hf.dir_legal f.rdyCycle, hfs⟩
  | grantSwitch i f fs hi hb hst =>
      obtain ⟨hf, hfs⟩ := front hb
      refine ⟨forall_mem_update hF.inp ?_, hF.out, hF.released, hF.waiting⟩
      exact List.forall_mem_cons.mpr ⟨legal_restate hf .sa hf.dir_legal f.rdyCycle, hfs⟩
  | crossLocal i c f fs hi hn hb hst hp =>
      obtain ⟨hf, hfs⟩ := front hb
      exact ⟨forall_mem_update hF.inp hfs, forall_mem_update hF.out
        (push (hF.out c) (legal_restate hf .st hf.dir_legal f.rdyCycle)), hF.released,
        hF.waiting⟩
  | cross i c u f fs rdy hi hn hb hst hp hu =>
      obtain ⟨hf, hfs⟩ := front hb
      exact ⟨forall_mem_update hF.inp hfs, forall_mem_update hF.out
        (push (hF.out c) (legal_restate hf .st hf.dir_legal f.rdyCycle)), hF.released,
        hF.waiting⟩
  | eject c f fs hc hb hp =>
      have hf : k.Legal f := hF.out c f (by simp [hb])
      refine ⟨hF.inp, forall_mem_update hF.out fun g hg => hF.out c g (by simp [hb, hg]), ?_,
        hF.waiting⟩
      intro r v g hg
      change g ∈ upd F.released c.r c.v (F.released c.r c.v ++ [f]) r v at hg
      rw [upd_apply] at hg
      split at hg
      · exact push (hF.released c.r c.v) hf g hg
      · exact hF.released r v g hg
  | forward c d f fs rdy hc hb hp hd hcr =>
      have hf : k.Legal f := hF.out c f (by simp [hb])
      exact ⟨forall_mem_update hF.inp
        (push (hF.inp d) (legal_restate hf .ib hf.dir_legal rdy)),
        forall_mem_update hF.out fun g hg => hF.out c g (by simp [hb, hg]), hF.released, hF.waiting⟩
  | creditBack r kept rest cr hr hb => exact ⟨hF.inp, hF.out, hF.released, hF.waiting⟩

/-! ## One output channel -/

/-- The buffer `out` of an output channel with its availability flag, the input channel that
names it and the request that holds it. -/
structure OutOk (out : List Flit) (avail : Bool) (src : Option Chan) (owner : Option NocReq) :
    Prop where
  free : owner = none → avail = true ∧ out = [] ∧ src = none
  held : ∀ q, owner = some q → avail = false ∧ ∀ f ∈ out, f.req = q ∧ f.state = .st
  bound : ∀ q i, owner = some q → src = some i → ∀ f ∈ out, f.tail = false
  leaving : ∀ q, owner = some q → src = none →
    ∃ l t, out = l ++ [t] ∧ t.tail = true ∧ ∀ f ∈ l, f.tail = false

namespace OutOk

variable {out : List Flit} {avail : Bool} {src : Option Chan} {owner : Option NocReq} {f : Flit}
  {fs : List Flit}

/-- A channel that is available has no owner. -/
theorem owner_none (h : OutOk out avail src owner) (ha : avail = true) : owner = none := by
  cases ho : owner with
  | none => rfl
  | some q =>
      have := (h.held q ho).1
      simp_all

/-- The head of a packet takes the channel. -/
theorem grant (i : Chan) (q : NocReq) : OutOk [] false (some i) (some q) := by
  constructor <;> simp

/-- A flit of the owner that is not its tail enters the buffer. -/
theorem push_body {i : Chan} {q : NocReq} (h : OutOk out avail (some i) (some q))
    (hreq : f.req = q) (hst : f.state = .st) (htail : f.tail = false) :
    OutOk (out ++ [f]) avail (some i) (some q) := by
  have hbound := h.bound q i rfl rfl
  have hheld := h.held q rfl
  constructor
  · simp
  · rintro q' ⟨⟩
    refine ⟨hheld.1, fun g hg => ?_⟩
    rcases List.mem_append.mp hg with hg | hg
    · exact hheld.2 g hg
    · exact List.mem_singleton.mp hg ▸ ⟨hreq, hst⟩
  · rintro q' i' - - g hg
    rcases List.mem_append.mp hg with hg | hg
    · exact hbound g hg
    · exact List.mem_singleton.mp hg ▸ htail
  · simp

/-- The tail enters the buffer and the name is dropped. -/
theorem push_tail {i : Chan} {q : NocReq} (h : OutOk out avail (some i) (some q))
    (hreq : f.req = q) (hst : f.state = .st) (htail : f.tail = true) :
    OutOk (out ++ [f]) avail none (some q) := by
  have hheld := h.held q rfl
  constructor
  · simp
  · rintro q' ⟨⟩
    refine ⟨hheld.1, fun g hg => ?_⟩
    rcases List.mem_append.mp hg with hg | hg
    · exact hheld.2 g hg
    · exact List.mem_singleton.mp hg ▸ ⟨hreq, hst⟩
  · simp
  · exact fun q' _ _ => ⟨out, f, rfl, htail, h.bound q i rfl rfl⟩

/-- A flit that is not a tail leaves the buffer. -/
theorem pop_body (h : OutOk (f :: fs) avail src owner) (htail : f.tail = false) :
    OutOk fs avail src owner := by
  constructor
  · intro ho
    simpa using (h.free ho).2.1
  · intro q ho
    obtain ⟨ha, hall⟩ := h.held q ho
    exact ⟨ha, fun g hg => hall g (by simp [hg])⟩
  · exact fun q i ho hs g hg => h.bound q i ho hs g (by simp [hg])
  · intro q ho hs
    obtain ⟨l, t, hl, ht, hb⟩ := h.leaving q ho hs
    cases l with
    | nil =>
        simp only [List.nil_append, List.cons.injEq] at hl
        simp [hl.1, ht] at htail
    | cons x l =>
        simp only [List.cons_append, List.cons.injEq] at hl
        exact ⟨l, t, hl.2, ht, fun g hg => hb g (by simp [hg])⟩

/-- When a tail leaves the buffer, nothing is left and nothing names the channel. -/
theorem pop_tail (h : OutOk (f :: fs) avail src owner) (htail : f.tail = true) :
    fs = [] ∧ src = none := by
  cases ho : owner with
  | none => simpa using (h.free ho).2.1
  | some q =>
      cases hs : src with
      | some i =>
          have := h.bound q i ho hs f (by simp)
          simp [htail] at this
      | none =>
          obtain ⟨l, t, hl, -, hb⟩ := h.leaving q ho hs
          cases l with
          | nil =>
              simp only [List.nil_append, List.cons.injEq] at hl
              exact ⟨hl.2, rfl⟩
          | cons x l =>
              simp only [List.cons_append, List.cons.injEq] at hl
              have := hb x (by simp)
              simp [← hl.1, htail] at this

/-- An empty channel is free. -/
theorem empty_free : OutOk [] true none none := by
  constructor <;> simp

end OutOk

/-! ## One input channel -/

/-- The buffer `inp` of an input channel, whether it names an output channel, and what it
expects next. -/
structure InOk (inp : List Flit) (named : Bool) (expect : Option (NocReq × ℕ)) : Prop where
  idle : named = false → expect = none ∧ ∀ f ∈ inp.head?, f.state = .ib ∨ f.state = .rc
  opening : named = true → expect = none → ∃ f ∈ inp.head?, f.state = .vca ∨ f.state = .sa
  following : named = true → expect ≠ none → ∀ f ∈ inp.head?, f.state = .ib ∨ f.state = .sa
  queued : ∀ f ∈ inp.tail, f.state = .ib

namespace InOk

variable {inp : List Flit} {named : Bool} {expect : Option (NocReq × ℕ)} {f g : Flit}
  {fs : List Flit}

/-- Flits in state `IB` arrive. -/
theorem append (h : InOk inp named expect) {l : List Flit} (hl : ∀ f ∈ l, f.state = .ib) :
    InOk (inp ++ l) named expect := by
  cases inp with
  | cons x xs =>
      refine ⟨h.idle, h.opening, h.following, fun f hf => ?_⟩
      rcases List.mem_append.mp hf with hf | hf
      · exact h.queued f hf
      · exact hl f hf
  | nil =>
      rw [List.nil_append]
      have hhead : ∀ f ∈ l.head?, f.state = .ib := fun f hf => hl f (List.mem_of_mem_head? hf)
      refine ⟨fun hn => ⟨(h.idle hn).1, fun f hf => .inl (hhead f hf)⟩, fun hn he => ?_,
        fun _ _ f hf => .inl (hhead f hf), fun f hf => hl f (List.mem_of_mem_tail hf)⟩
      obtain ⟨f, hf, -⟩ := h.opening hn he
      simp at hf

/-- A head flit that has not been through allocation belongs to a channel without a name. -/
theorem unnamed (h : InOk (f :: fs) named expect) (hst : f.state = .rc ∨
    f.state = .ib ∧ expect = none) : named = false := by
  cases named with
  | false => rfl
  | true =>
      by_cases he : expect = none
      · obtain ⟨g, hg, hs⟩ := h.opening rfl he
        obtain rfl : f = g := by simpa using hg
        rcases hst with hst | ⟨hst, -⟩ <;> rcases hs with hs | hs <;> simp [hst] at hs
      · have hs := h.following rfl he f (by simp)
        rcases hst with hst | ⟨-, hst⟩
        · rcases hs with hs | hs <;> simp [hst] at hs
        · exact absurd hst he

/-- A flit that may ask for the switch belongs to a channel with a name. -/
theorem has_name (h : InOk (f :: fs) named expect)
    (hst : f.state = .vca ∨ f.state = .sa ∨ expect ≠ none) : named = true := by
  cases named with
  | true => rfl
  | false =>
      obtain ⟨he, hs⟩ := h.idle rfl
      have hs := hs f (by simp)
      rcases hst with hst | hst | hst
      · rcases hs with hs | hs <;> simp [hst] at hs
      · rcases hs with hs | hs <;> simp [hst] at hs
      · exact absurd he hst

/-- Route computation. -/
theorem route (h : InOk (f :: fs) false expect) (hg : g.state = .rc) :
    InOk (g :: fs) false expect :=
  ⟨fun _ => ⟨(h.idle rfl).1, by simp [hg]⟩, by simp, by simp, h.queued⟩

/-- Virtual-channel allocation. -/
theorem allocate (h : InOk (f :: fs) false expect) (hg : g.state = .vca) :
    InOk (g :: fs) true expect :=
  ⟨by simp, by simp [hg], fun _ he => absurd (h.idle rfl).1 he, h.queued⟩

/-- Switch allocation. -/
theorem switch (h : InOk (f :: fs) true expect) (hg : g.state = .sa) :
    InOk (g :: fs) true expect :=
  ⟨by simp, by simp [hg], by simp [hg], h.queued⟩

/-- The head of a packet behind the front is still to be routed. -/
theorem head_queued (h : InOk (f :: fs) named expect) : ∀ g ∈ fs.head?, g.state = .ib :=
  fun g hg => h.queued g (List.mem_of_mem_head? hg)

/-- A flit that is not a tail crosses the switch. -/
theorem pop_body (h : InOk (f :: fs) true expect) (x : NocReq × ℕ) : InOk fs true (some x) :=
  ⟨by simp, by simp, fun _ _ g hg => .inl (h.head_queued g hg),
    fun g hg => h.queued g (List.mem_of_mem_tail hg)⟩

/-- The tail crosses the switch. -/
theorem pop_tail (h : InOk (f :: fs) true expect) : InOk fs false none :=
  ⟨fun _ => ⟨rfl, fun g hg => .inl (h.head_queued g hg)⟩, by simp, by simp,
    fun g hg => h.queued g (List.mem_of_mem_tail hg)⟩

end InOk

end MacSim.Analysis
