import MacSim.Computation.PacketStream
import MacSim.Analysis.CreditConservation
import MacSim.Analysis.WormChannels

/-!
# Ownership of virtual channels

The invariant of wormhole switching.  Every channel is in order in the sense of
`MacSim.Analysis.WormChannels`, and the streams join the channels: what is in a link's input
buffer and in the output buffer before it is accepted, in the sense of `Accepts`, from what the
input channel expects to what its feeding input channel will send next.

The records of a router do not say which packet holds a channel, so the invariant is about a
fabric together with a `Worms`, which does.
-/

set_option autoImplicit false

namespace MacSim.Analysis

open MacSim.Model MacSim.Computation

variable {k : NocKnobs}

/-! ## The whole fabric -/

/-- Which packet is where: what each input channel expects next, which input channel names an
output channel, and which request holds an output channel. -/
structure Worms where
  expect : Chan → Option (NocReq × ℕ)
  src : Chan → Option Chan
  owner : Chan → Option NocReq

/-- What the output channel `c` will be sent next. -/
def Worms.feed (w : Worms) (c : Chan) : Option (NocReq × ℕ) := (w.src c).bind w.expect

/-- The place of a flit in its packet. -/
def key (f : Flit) : NocReq × ℕ := (f.req, f.id)

/-- The packet at the front of an input channel is that of `q`. -/
def Carries (inp : List Flit) (expect : Option (NocReq × ℕ)) (q : NocReq) : Prop :=
  (expect = none → ∃ f ∈ inp.head?, f.req = q) ∧ ∀ x, expect = some x → x.1 = q

/-- The front flit, if it waits for an output channel, has only routes that lead on. -/
def Routed (k : NocKnobs) (r : ℕ) (inp : List Flit) (route : Port → Bool) : Prop :=
  ∀ f ∈ inp.head?, f.state = .rc → ∀ p, route p = true → k.Leads r f.dst p

/-- The invariant of wormhole switching. -/
structure WormInv (k : NocKnobs) (F : Fabric) (w : Worms) : Prop where
  out_ok : ∀ c, OutOk (F.out c) (F.avail c) (w.src c) (w.owner c)
  in_ok : ∀ i, InOk (F.inp i) (F.outPort i).isSome (w.expect i)
  paired : ∀ i, (F.outVc i).isSome = (F.outPort i).isSome
  src_iff : ∀ c i, w.src c = some i ↔ F.Names i c
  carries : ∀ c i q, w.src c = some i → w.owner c = some q → Carries (F.inp i) (w.expect i) q
  leads : ∀ c q, w.owner c = some q → k.Valid c ∧ k.Leads c.r q.msgDst c.p
  routed : ∀ i, Routed k i.r (F.inp i) (F.route i)
  linkStream : ∀ c d, c.r < k.numRouter → k.down c = some d →
    Accepts k.numFlit (w.expect d) ((F.inp d ++ F.out c).map key) (w.feed c)
  localStream : ∀ c, c.p = .loc →
    Accepts k.numFlit none ((F.released c.r c.v ++ F.out c).map key) (w.feed c)
  injectStream : ∀ i, i.p = .loc → Accepts k.numFlit (w.expect i) ((F.inp i).map key) none
  home : ∀ r v, ∀ f ∈ F.released r v, f.req.msgDst = r

/-- The worms of the empty fabric. -/
def Worms.none : Worms :=
  { expect := fun _ => .none, src := fun _ => .none, owner := fun _ => .none }

/-- The empty fabric has no worms. -/
theorem wormInv_empty : WormInv k Fabric.empty Worms.none where
  out_ok _ := OutOk.empty_free
  in_ok _ := ⟨by simp [Fabric.empty, Worms.none], by simp [Fabric.empty],
    by simp [Fabric.empty], by simp [Fabric.empty]⟩
  paired _ := rfl
  src_iff _ _ := by simp [Worms.none, Fabric.Names, Fabric.empty]
  carries _ _ _ h := by simp [Worms.none] at h
  leads _ _ h := by simp [Worms.none] at h
  routed _ _ h := by simp [Fabric.empty] at h
  linkStream _ _ _ _ := rfl
  localStream _ _ := rfl
  injectStream _ _ := rfl
  home _ _ _ h := by simp [Fabric.empty] at h

section Steps

variable {F G : Fabric} {w : Worms} {i c : Chan} {f g : Flit} {fs : List Flit}

/-- Moves of requests and credits. -/
theorem WormInv.of_same (hW : WormInv k F w) (hinp : G.inp = F.inp) (hout : G.out = F.out)
    (hport : G.outPort = F.outPort) (hvc : G.outVc = F.outVc) (havail : G.avail = F.avail)
    (hroute : G.route = F.route) (hrel : G.released = F.released) : WormInv k G w := by
  cases F
  cases G
  subst hinp hout hport hvc havail hroute hrel
  exact ⟨hW.out_ok, hW.in_ok, hW.paired, hW.src_iff, hW.carries, hW.leads, hW.routed,
    hW.linkStream, hW.localStream, hW.injectStream, hW.home⟩

/-- The front flit of an input channel is the one that the channel expects. -/
theorem WormInv.expects_front (hC : CreditInv k F) (hW : WormInv k F w)
    (hi : i.r < k.numRouter) (hb : F.inp i = f :: fs) : Expects (w.expect i) (key f) := by
  by_cases hp : i.p = .loc
  · have := hW.injectStream i hp
    rw [hb] at this
    exact this.1
  · cases hd : k.down i with
    | none =>
        have := hC.edge i hi hp hd
        simp [hb] at this
    | some u =>
        obtain ⟨hu, hback⟩ := down_symm hi hd
        have := hW.linkStream u i hu hback
        rw [hb] at this
        exact this.1

/-- A head flit at the front means that the channel is between packets. -/
theorem WormInv.expect_none (hL : FlitsLegal k F) (hC : CreditInv k F) (hW : WormInv k F w)
    (hi : i.r < k.numRouter) (hb : F.inp i = f :: fs) :
    f.head = true ↔ w.expect i = none := by
  have hf := hL.inp i f (by simp [hb])
  have he := hW.expects_front hC hi hb
  constructor
  · exact fun hh => he.eq_none (hf.head_iff.mp hh)
  · intro hn
    rw [hn] at he
    exact hf.head_iff.mpr he

/-- The keys in the buffers do not change with the state of a front flit. -/
theorem keys_update_front (hb : F.inp i = f :: fs) (hkey : key g = key f) (j : Chan) :
    (Function.update F.inp i (g :: fs) j).map key = (F.inp j).map key := by
  by_cases hj : j = i
  · subst hj
    simp [hb, hkey]
  · rw [Function.update_of_ne hj]

/-- The front flit may be exchanged for another one of the same packet. -/
theorem Carries.front {e : Option (NocReq × ℕ)} {q : NocReq} (h : Carries (f :: fs) e q)
    (hreq : g.req = f.req) : Carries (g :: fs) e q := by
  refine ⟨fun he => ?_, h.2⟩
  obtain ⟨x, hx, hq⟩ := h.1 he
  obtain rfl : f = x := by simpa using hx
  exact ⟨g, by simp, hreq.trans hq⟩

/-- Moves that rewrite the pipeline state of a front flit and nothing of the names. -/
theorem WormInv.front (hW : WormInv k F w) (hb : F.inp i = f :: fs) (hkey : key g = key f)
    (hin : InOk (g :: fs) (F.outPort i).isSome (w.expect i))
    (hroute : Routed k i.r (g :: fs) (G.route i))
    (hinp : G.inp = Function.update F.inp i (g :: fs)) (hout : G.out = F.out)
    (hport : G.outPort = F.outPort) (hvc : G.outVc = F.outVc) (havail : G.avail = F.avail)
    (hother : ∀ j, j ≠ i → G.route j = F.route j) (hrel : G.released = F.released) :
    WormInv k G w := by
  have hreq : g.req = f.req := congrArg Prod.fst hkey
  have hkeys (j : Chan) : (G.inp j).map key = (F.inp j).map key := by
    rw [hinp, keys_update_front hb hkey]
  constructor
  · intro c
    rw [hout, havail]
    exact hW.out_ok c
  · intro j
    rw [hinp, hport]
    by_cases hj : j = i
    · subst hj
      rw [Function.update_self]
      exact hin
    · rw [Function.update_of_ne hj]
      exact hW.in_ok j
  · intro j
    rw [hport, hvc]
    exact hW.paired j
  · intro c j
    rw [Fabric.Names, hport, hvc]
    exact hW.src_iff c j
  · intro c j q hs ho
    have hc := hW.carries c j q hs ho
    rw [hinp]
    by_cases hj : j = i
    · subst hj
      rw [Function.update_self]
      rw [hb] at hc
      exact hc.front hreq
    · rw [Function.update_of_ne hj]
      exact hc
  · exact hW.leads
  · intro j
    rw [hinp]
    by_cases hj : j = i
    · subst hj
      rw [Function.update_self]
      exact hroute
    · rw [Function.update_of_ne hj, hother j hj]
      exact hW.routed j
  · intro c d hc hd
    rw [List.map_append, hkeys, hout, ← List.map_append]
    exact hW.linkStream c d hc hd
  · intro c hc
    rw [hrel, hout]
    exact hW.localStream c hc
  · intro j hj
    rw [hkeys]
    exact hW.injectStream j hj
  · rw [hrel]
    exact hW.home

/-- Route computation. -/
theorem WormInv.computeRoute (hL : FlitsLegal k F) (hC : CreditInv k F) (hW : WormInv k F w)
    {enabled : Port → Bool} {dir : Option Port} (hi : k.Valid i) (hb : F.inp i = f :: fs)
    (hst : f.state = .ib) (hhead : f.head = true)
    (hroute : k.Legal f → ∀ p, enabled p = true → k.Leads i.r f.dst p) :
    WormInv k
      { F with
        inp := Function.update F.inp i ({ f with state := .rc, dir := dir } :: fs)
        route := Function.update F.route i enabled } w := by
  have he := (hW.expect_none hL hC hi.1 hb).mp hhead
  have hin := hW.in_ok i
  rw [hb] at hin
  have hun := hin.unnamed (.inr ⟨hst, he⟩)
  refine hW.front (g := { f with state := .rc, dir := dir }) hb rfl ?_ ?_ rfl rfl rfl rfl rfl ?_
    rfl
  · rw [hun] at hin ⊢
    exact hin.route rfl
  · intro x hx _ p hp
    obtain rfl : { f with state := .rc, dir := dir } = x := by simpa using hx
    simp only [Function.update_self] at hp
    exact hroute (hL.inp i f (by simp [hb])) p hp
  · exact fun j hj => Function.update_of_ne hj _ _

/-- Switch allocation. -/
theorem WormInv.grantSwitch (hL : FlitsLegal k F) (hC : CreditInv k F) (hW : WormInv k F w)
    (hi : k.Valid i) (hb : F.inp i = f :: fs)
    (hst : f.head = true ∧ f.state = .vca ∨ f.head = false ∧ f.state = .ib) :
    WormInv k { F with inp := Function.update F.inp i ({ f with state := .sa } :: fs) } w := by
  have he := hW.expect_none hL hC hi.1 hb
  have hin := hW.in_ok i
  rw [hb] at hin
  have hnamed : (F.outPort i).isSome = true := by
    refine hin.has_name ?_
    rcases hst with ⟨-, hst⟩ | ⟨hh, -⟩
    · exact .inl hst
    · exact .inr (.inr fun hn => by simp [he.mpr hn] at hh)
  refine hW.front (g := { f with state := .sa }) hb rfl ?_ ?_ rfl rfl rfl rfl rfl (fun _ _ => rfl)
    rfl
  · rw [hnamed] at hin ⊢
    exact hin.switch rfl
  · intro x hx hrc
    obtain rfl : { f with state := .sa } = x := by simpa using hx
    simp at hrc

/-- An input channel names one output channel at most. -/
theorem names_unique {c' : Chan} (h : F.Names i c) (h' : F.Names i c') : c = c' :=
  Chan.ext (h.1.symm.trans h'.1) (Option.some.inj (h.2.1.symm.trans h'.2.1))
    (Option.some.inj (h.2.2.symm.trans h'.2.2))

/-- Virtual-channel allocation. -/
theorem WormInv.grantVc (hL : FlitsLegal k F) (hW : WormInv k F w) (hc : k.Valid c)
    (hr : i.r = c.r) (hb : F.inp i = f :: fs) (hst : f.state = .rc)
    (hroute : F.route i c.p = true) (havail : F.avail c = true) :
    WormInv k
      { F with
        inp := Function.update F.inp i ({ f with state := .vca } :: fs)
        outPort := Function.update F.outPort i (some c.p)
        outVc := Function.update F.outVc i (some c.v)
        avail := Function.update F.avail c false }
      { w with
        src := Function.update w.src c (some i)
        owner := Function.update w.owner c (some f.req) } := by
  have hf := hL.inp i f (by simp [hb])
  have hin := hW.in_ok i
  rw [hb] at hin
  have hun := hin.unnamed (.inl hst)
  have hport : F.outPort i = none := by simpa using hun
  rw [hun] at hin
  have he : w.expect i = none := (hin.idle rfl).1
  have howner := (hW.out_ok c).owner_none havail
  obtain ⟨-, hout, hsrc⟩ := (hW.out_ok c).free howner
  -- the channel that is taken was not fed by anyone
  have hfeed (c' : Chan) : ({ w with
      src := Function.update w.src c (some i)
      owner := Function.update w.owner c (some f.req) } : Worms).feed c' = w.feed c' := by
    simp only [Worms.feed]
    by_cases hcc : c' = c
    · subst hcc
      simp [hsrc, he]
    · rw [Function.update_of_ne hcc]
  have hkeys := keys_update_front (g := { f with state := .vca }) hb rfl
  constructor
  · intro c'
    by_cases hcc : c' = c
    · subst hcc
      simp only [Function.update_self, hout]
      exact OutOk.grant i f.req
    · simp only [Function.update_of_ne hcc]
      exact hW.out_ok c'
  · intro j
    by_cases hj : j = i
    · subst hj
      simp only [Function.update_self, Option.isSome_some]
      exact hin.allocate rfl
    · simp only [Function.update_of_ne hj]
      exact hW.in_ok j
  · intro j
    by_cases hj : j = i
    · subst hj
      simp
    · simp only [Function.update_of_ne hj]
      exact hW.paired j
  · intro c' j
    by_cases hcc : c' = c
    · subst hcc
      simp only [Function.update_self, Option.some.injEq, Fabric.Names]
      constructor
      · rintro rfl
        simp [hr]
      · rintro ⟨hjr, hjp, hjv⟩
        by_contra hne
        rw [Function.update_of_ne (Ne.symm hne)] at hjp hjv
        have := (hW.src_iff c' j).mpr ⟨hjr, hjp, hjv⟩
        simp [hsrc] at this
    · simp only [Function.update_of_ne hcc, hW.src_iff, Fabric.Names]
      by_cases hj : j = i
      · subst hj
        simp only [hport, Function.update_self, Option.some.injEq, false_and, and_false,
          reduceCtorEq, false_iff]
        rintro ⟨hjr, hjp, hjv⟩
        exact hcc (Chan.ext (hjr.symm.trans hr) hjp.symm hjv.symm)
      · simp only [Function.update_of_ne hj]
  · intro c' j q hs ho
    by_cases hcc : c' = c
    · subst hcc
      simp only [Function.update_self, Option.some.injEq] at hs ho
      subst hs ho
      simp only [Function.update_self]
      exact ⟨fun _ => ⟨{ f with state := .vca }, by simp, rfl⟩, fun x hx => by simp [he] at hx⟩
    · simp only [Function.update_of_ne hcc] at hs ho
      have hj : j ≠ i := by
        rintro rfl
        have := ((hW.src_iff c' j).mp hs).2.1
        simp [hport] at this
      simp only [Function.update_of_ne hj]
      exact hW.carries c' j q hs ho
  · intro c' q ho
    by_cases hcc : c' = c
    · subst hcc
      simp only [Function.update_self, Option.some.injEq] at ho
      subst ho
      have := hW.routed i f (by simp [hb]) hst c'.p hroute
      rw [hr, hf.dst_eq] at this
      exact ⟨hc, this⟩
    · simp only [Function.update_of_ne hcc] at ho
      exact hW.leads c' q ho
  · intro j
    by_cases hj : j = i
    · subst hj
      simp only [Function.update_self]
      intro x hx hrc
      obtain rfl : { f with state := .vca } = x := by simpa using hx
      simp at hrc
    · simp only [Function.update_of_ne hj]
      exact hW.routed j
  · intro c' d hc' hd
    rw [hfeed, List.map_append, hkeys, ← List.map_append]
    exact hW.linkStream c' d hc' hd
  · intro c' hc'
    rw [hfeed]
    exact hW.localStream c' hc'
  · intro j hj
    rw [hkeys]
    exact hW.injectStream j hj
  · exact hW.home

/-- The tail is the last piece of its packet. -/
theorem afterPiece_key (hf : k.Legal f) :
    afterPiece k.numFlit (key f) = if f.tail then none else some (key f) := by
  unfold afterPiece
  by_cases ht : f.tail = true
  · rw [if_pos ht, if_pos]
    exact hf.tail_iff.mp ht
  · rw [if_neg ht, if_neg]
    exact fun h => ht (hf.tail_iff.mpr h)

/-- The worms after the flit `f` of `i` has crossed the switch to `c`. -/
def Worms.cross (w : Worms) (k : NocKnobs) (i c : Chan) (f : Flit) : Worms :=
  { w with
    expect := Function.update w.expect i (afterPiece k.numFlit (key f))
    src := if f.tail then Function.update w.src c .none else w.src }

/-- A flit that crosses the switch frees its channel with its tail. -/
theorem cross_src (w : Worms) (c' : Chan) :
    (w.cross k i c f).src c' = if c' = c ∧ f.tail = true then none else w.src c' := by
  unfold Worms.cross
  by_cases ht : f.tail = true
  · simp [ht, Function.update_apply]
  · simp [ht]

/-- A flit that crosses the switch leaves the next piece to be expected. -/
theorem cross_expect (w : Worms) (j : Chan) : (w.cross k i c f).expect j =
    if j = i then afterPiece k.numFlit (key f) else w.expect j :=
  Function.update_apply _ _ _ _

/-- A tail that crosses the switch drops what is noted of its channel, and only there. -/
theorem dropped_apply {α : Type} (t : Chan → Option α) (j : Chan) :
    Fabric.dropped t i f j = if j = i ∧ f.tail = true then none else t j := by
  unfold Fabric.dropped
  by_cases ht : f.tail = true
  · simp [ht, Function.update_apply]
  · simp [ht]

/-- Only the channel that receives the flit is fed differently. -/
theorem WormInv.feed_cross (hW : WormInv k F w) (hf : k.Legal f) (hsrc : w.src c = some i)
    (c' : Chan) : (w.cross k i c f).feed c' =
      if c' = c then afterPiece k.numFlit (key f) else w.feed c' := by
  have hafter := afterPiece_key hf
  rw [Worms.feed, cross_src]
  by_cases hcc : c' = c
  · subst hcc
    rw [if_pos rfl]
    by_cases ht : f.tail = true
    · simp [ht, hafter]
    · simp [Worms.cross, ht, hsrc]
  · rw [if_neg (fun h => hcc h.1), if_neg hcc, Worms.feed]
    cases hj : w.src c' with
    | none => rfl
    | some j =>
        -- the sender names `c` only
        have hji : j ≠ i := by
          rintro rfl
          exact hcc (names_unique ((hW.src_iff _ _).mp hj) ((hW.src_iff _ _).mp hsrc))
        exact Function.update_of_ne hji _ _

/-- A flit crosses the switch. -/
theorem WormInv.cross (hL : FlitsLegal k F) (hC : CreditInv k F) (hW : WormInv k F w)
    (hi : k.Valid i) (hn : F.Names i c) (hb : F.inp i = f :: fs)
    (hinp : G.inp = Function.update F.inp i fs)
    (hout : G.out = Function.update F.out c (F.out c ++ [{ f with state := .st }]))
    (hport : G.outPort = Fabric.dropped F.outPort i f) (hvc : G.outVc = Fabric.dropped F.outVc i f)
    (havail : G.avail = F.avail) (hroute : G.route = F.route) (hrel : G.released = F.released) :
    WormInv k G (w.cross k i c f) := by
  have hf := hL.inp i f (by simp [hb])
  have hexp := hW.expects_front hC hi.1 hb
  have hsrc : w.src c = some i := (hW.src_iff c i).mpr hn
  have hfeed := hW.feed_cross hf hsrc
  have hin := hW.in_ok i
  rw [hb, show (F.outPort i).isSome = true by simp [hn.2.1]] at hin
  obtain ⟨q, hq⟩ : ∃ q, w.owner c = some q := by
    cases ho : w.owner c with
    | none => simp [((hW.out_ok c).free ho).2.2] at hsrc
    | some q => exact ⟨q, rfl⟩
  have hcar := hW.carries c i q hsrc hq
  rw [hb] at hcar
  have hreq : f.req = q := by
    cases he : w.expect i with
    | none => simpa using hcar.1 he
    | some x =>
        rw [he] at hexp
        exact hexp.1.trans (hcar.2 x he)
  have hafter := afterPiece_key hf
  -- taking the front flit away keeps every stream that starts at an input buffer
  have hpop (d : Chan) (rest : List Flit) (e : Option (NocReq × ℕ))
      (h : Accepts k.numFlit (w.expect d) ((F.inp d ++ rest).map key) e) :
      Accepts k.numFlit ((w.cross k i c f).expect d) ((G.inp d ++ rest).map key) e := by
    rw [hinp]
    by_cases hd : d = i
    · subst hd
      rw [hb] at h
      simp only [Worms.cross, Function.update_self]
      exact h.2
    · simp only [Worms.cross, Function.update_of_ne hd]
      exact h
  -- a stream that ends at an output buffer grows by the flit, or stays
  have hpush (c' : Chan) (e : Option (NocReq × ℕ)) (l : List Flit)
      (h : Accepts k.numFlit e ((l ++ F.out c').map key) (w.feed c')) :
      Accepts k.numFlit e ((l ++ G.out c').map key) ((w.cross k i c f).feed c') := by
    rw [hfeed, hout]
    by_cases hcc : c' = c
    · subst hcc
      rw [if_pos rfl, Function.update_self, ← List.append_assoc, List.map_append]
      have hnext : Expects (w.feed c') (key f) := by
        simpa [Worms.feed, hsrc] using hexp
      exact h.snoc hnext
    · rw [if_neg hcc, Function.update_of_ne hcc]
      exact h
  have hoc := hW.out_ok c
  rw [hsrc, hq] at hoc
  constructor
  · intro c'
    rw [hout, havail, cross_src]
    by_cases hcc : c' = c
    · subst hcc
      rw [Function.update_self, hsrc]
      change OutOk _ _ _ (w.owner c')
      rw [hq]
      by_cases ht : f.tail = true
      · rw [if_pos ⟨rfl, ht⟩]
        exact hoc.push_tail hreq rfl ht
      · rw [if_neg (fun h => ht h.2)]
        exact hoc.push_body hreq rfl (by simpa using ht)
    · rw [Function.update_of_ne hcc, if_neg (fun h => hcc h.1)]
      exact hW.out_ok c'
  · intro j
    rw [hinp, hport, dropped_apply]
    by_cases hj : j = i
    · subst hj
      rw [Function.update_self, cross_expect, if_pos rfl, hafter]
      by_cases ht : f.tail = true
      · rw [if_pos ⟨rfl, ht⟩, if_pos ht]
        exact hin.pop_tail
      · rw [if_neg (fun h => ht h.2), if_neg ht, hn.2.1]
        exact hin.pop_body _
    · rw [Function.update_of_ne hj, if_neg (fun h => hj h.1), cross_expect, if_neg hj]
      exact hW.in_ok j
  · intro j
    rw [hport, hvc, dropped_apply, dropped_apply]
    split
    · rfl
    · exact hW.paired j
  · intro c' j
    have hold := hW.src_iff c' j
    rw [Fabric.Names, hport, hvc, cross_src, dropped_apply, dropped_apply]
    by_cases hj : j = i
    · subst hj
      by_cases ht : f.tail = true
      · -- after the tail the channel names nothing
        have : ¬ (if c' = c ∧ f.tail = true then none else w.src c') = some j := by
          by_cases hcc : c' = c
          · simp [hcc, ht]
          · rw [if_neg (fun h => hcc h.1), hold]
            exact fun h => hcc (names_unique h hn)
        rw [iff_false_left this, if_pos ⟨rfl, ht⟩]
        simp
      · rw [if_neg (fun h => ht h.2), if_neg (fun h => ht h.2), if_neg (fun h => ht h.2)]
        exact hold
    · have hji : ¬ (j = i ∧ f.tail = true) := fun h => hj h.1
      rw [if_neg hji, if_neg hji]
      by_cases hcc : c' = c ∧ f.tail = true
      · rw [if_pos hcc]
        obtain ⟨rfl, -⟩ := hcc
        simp only [reduceCtorEq, false_iff]
        intro h
        have := hold.mpr h
        rw [hsrc] at this
        exact hj (Option.some.inj this).symm
      · rw [if_neg hcc]
        exact hold
  · intro c' j q' hs ho
    rw [cross_src] at hs
    split at hs
    · cases hs
    · rename_i hct
      by_cases hj : j = i
      · subst hj
        have hcc : c' = c := names_unique ((hW.src_iff _ _).mp hs) hn
        have ht : ¬ f.tail = true := fun ht => hct ⟨hcc, ht⟩
        subst hcc
        obtain rfl : q = q' := Option.some.inj (hq.symm.trans ho)
        rw [cross_expect, if_pos rfl, hafter, if_neg ht]
        refine ⟨by simp, fun x hx => ?_⟩
        obtain rfl := Option.some.inj hx
        exact hreq
      · rw [hinp, cross_expect, if_neg hj, Function.update_of_ne hj]
        exact hW.carries c' j q' hs ho
  · exact hW.leads
  · intro j
    rw [hinp, hroute]
    by_cases hj : j = i
    · subst hj
      rw [Function.update_self]
      intro x hx hrc
      have := hin.head_queued x hx
      simp [hrc] at this
    · rw [Function.update_of_ne hj]
      exact hW.routed j
  · exact fun c' d hc' hd => hpush c' _ _ (hpop d _ _ (hW.linkStream c' d hc' hd))
  · intro c' hc'
    rw [hrel]
    exact hpush c' _ _ (hW.localStream c' hc')
  · intro j hj
    have := hpop j [] none (by simpa using hW.injectStream j hj)
    simpa using this
  · rw [hrel]
    exact hW.home

/-- The worms after the flit `f` has left the output channel `c`. -/
def Worms.leave (w : Worms) (c : Chan) (f : Flit) : Worms :=
  { w with owner := if f.tail then Function.update w.owner c .none else w.owner }

/-- An owner after a flit has left was the owner before. -/
theorem owner_of_leave {c' : Chan} {q : NocReq} (h : (w.leave c f).owner c' = some q) :
    w.owner c' = some q := by
  unfold Worms.leave at h
  by_cases ht : f.tail = true
  · simp only [ht, if_true, Function.update_apply] at h
    split at h
    · cases h
    · exact h
  · simpa [ht] using h

/-- The output channels after a flit has left one of them. -/
theorem WormInv.out_ok_leave (hW : WormInv k F w) (hb : F.out c = f :: fs) (c' : Chan) :
    OutOk (Function.update F.out c fs c') (F.freed c f c') (w.src c')
      ((w.leave c f).owner c') := by
  have hoc := hW.out_ok c
  rw [hb] at hoc
  by_cases ht : f.tail = true
  · obtain ⟨rfl, hsrc⟩ := hoc.pop_tail ht
    simp only [Fabric.freed, Worms.leave, ht, if_true]
    by_cases hcc : c' = c
    · subst hcc
      simp only [Function.update_self, hsrc]
      exact OutOk.empty_free
    · simp only [Function.update_of_ne hcc]
      exact hW.out_ok c'
  · simp only [Fabric.freed, Worms.leave, ht, Bool.false_eq_true, if_false]
    by_cases hcc : c' = c
    · subst hcc
      rw [Function.update_self]
      exact hoc.pop_body (by simpa using ht)
    · rw [Function.update_of_ne hcc]
      exact hW.out_ok c'

/-- What a channel carries it carries with more flits behind. -/
theorem Carries.append {inp l : List Flit} {e : Option (NocReq × ℕ)} {q : NocReq}
    (h : Carries inp e q) : Carries (inp ++ l) e q := by
  refine ⟨fun he => ?_, h.2⟩
  obtain ⟨x, hx, hq⟩ := h.1 he
  cases inp with
  | nil => simp at hx
  | cons y ys => exact ⟨x, hx, hq⟩

/-- A routed channel stays routed with new flits behind. -/
theorem Routed.append {r : ℕ} {inp l : List Flit} {route : Port → Bool} (h : Routed k r inp route)
    (hl : ∀ f ∈ l, f.state = .ib) : Routed k r (inp ++ l) route := by
  cases inp with
  | cons y ys => exact h
  | nil =>
      intro f hf hrc
      have := hl f (List.mem_of_mem_head? hf)
      simp [hrc] at this

/-- A flit leaves through a local port. -/
theorem WormInv.eject (hW : WormInv k F w) (hb : F.out c = f :: fs)
    (hp : c.p = .loc) (hinp : G.inp = F.inp) (hout : G.out = Function.update F.out c fs)
    (havail : G.avail = F.freed c f) (hport : G.outPort = F.outPort) (hvc : G.outVc = F.outVc)
    (hroute : G.route = F.route)
    (hrel : G.released = upd F.released c.r c.v (F.released c.r c.v ++ [f])) :
    WormInv k G (w.leave c f) := by
  constructor
  · rw [hout, havail]
    exact hW.out_ok_leave hb
  · rw [hinp, hport]
    exact hW.in_ok
  · rw [hport, hvc]
    exact hW.paired
  · intro c' i
    rw [Fabric.Names, hport, hvc]
    exact hW.src_iff c' i
  · intro c' i q hs ho
    rw [hinp]
    exact hW.carries c' i q hs (owner_of_leave ho)
  · exact fun c' q ho => hW.leads c' q (owner_of_leave ho)
  · rw [hinp, hroute]
    exact hW.routed
  · intro c' d hc' hd
    have hne : c' ≠ c := by
      rintro rfl
      exact (down_ne_loc hc' hd).1 hp
    rw [hinp, hout, Function.update_of_ne hne]
    exact hW.linkStream c' d hc' hd
  · intro c' hp'
    have hold := hW.localStream c' hp'
    rw [hrel, hout]
    by_cases hcc : c' = c
    · subst hcc
      rw [upd_same, Function.update_self, List.append_assoc]
      rw [hb] at hold
      exact hold
    · have hne : ¬ (c'.r = c.r ∧ c'.v = c.v) :=
        fun h => hcc (Chan.ext h.1 (hp'.trans hp.symm) h.2)
      rw [upd_ne _ _ hne, Function.update_of_ne hcc]
      exact hold
  · rw [hinp]
    exact hW.injectStream
  · intro r v g hg
    rw [hrel, upd_apply] at hg
    split at hg
    · rename_i hrv
      obtain ⟨rfl, rfl⟩ := hrv
      rcases List.mem_append.mp hg with hg | hg
      · exact hW.home _ _ g hg
      · obtain rfl := List.mem_singleton.mp hg
        -- the channel is held by the packet of the flit, and only its destination is local
        cases ho : w.owner c with
        | none => simp [((hW.out_ok c).free ho).2.1] at hb
        | some q =>
            have hq := (((hW.out_ok c).held q ho).2 g (by simp [hb])).1
            rcases (hW.leads c q ho).2 with ⟨-, hdst⟩ | ⟨hloc, -⟩
            · rw [hq, hdst]
            · exact absurd hp hloc
    · exact hW.home r v g hg

/-- A flit crosses a link. -/
theorem WormInv.forward {d : Chan} (hW : WormInv k F w) (hc : c.r < k.numRouter)
    (hd : k.down c = some d) (hb : F.out c = f :: fs) (hkey : key g = key f)
    (hst : g.state = .ib) (hinp : G.inp = Function.update F.inp d (F.inp d ++ [g]))
    (hout : G.out = Function.update F.out c fs) (havail : G.avail = F.freed c f)
    (hport : G.outPort = F.outPort) (hvc : G.outVc = F.outVc) (hroute : G.route = F.route)
    (hrel : G.released = F.released) : WormInv k G (w.leave c f) := by
  obtain ⟨hloc, hdloc⟩ := down_ne_loc hc hd
  have hg : ∀ x ∈ [g], x.state = .ib := by simpa using hst
  constructor
  · rw [hout, havail]
    exact hW.out_ok_leave hb
  · intro j
    rw [hinp, hport]
    by_cases hj : j = d
    · subst hj
      rw [Function.update_self]
      exact (hW.in_ok j).append hg
    · rw [Function.update_of_ne hj]
      exact hW.in_ok j
  · rw [hport, hvc]
    exact hW.paired
  · intro c' j
    rw [Fabric.Names, hport, hvc]
    exact hW.src_iff c' j
  · intro c' j q hs ho
    have hcar := hW.carries c' j q hs (owner_of_leave ho)
    rw [hinp]
    by_cases hj : j = d
    · subst hj
      rw [Function.update_self]
      exact hcar.append
    · rw [Function.update_of_ne hj]
      exact hcar
  · exact fun c' q ho => hW.leads c' q (owner_of_leave ho)
  · intro j
    rw [hinp, hroute]
    by_cases hj : j = d
    · subst hj
      rw [Function.update_self]
      exact (hW.routed j).append hg
    · rw [Function.update_of_ne hj]
      exact hW.routed j
  · intro c' d' hc' hd'
    have hold := hW.linkStream c' d' hc' hd'
    have hsame := down_inj hc' hc hd' hd
    rw [hinp, hout]
    by_cases hcc : c' = c
    · obtain rfl := hsame.mpr hcc
      subst hcc
      rw [Function.update_self, Function.update_self, List.append_assoc]
      rw [hb] at hold
      change Accepts k.numFlit (w.expect d') _ (w.feed c')
      simpa [hkey] using hold
    · rw [Function.update_of_ne hcc, Function.update_of_ne fun h => hcc (hsame.mp h)]
      exact hold
  · intro c' hp'
    have hne : c' ≠ c := fun h => hloc (h ▸ hp')
    rw [hrel, hout, Function.update_of_ne hne]
    exact hW.localStream c' hp'
  · intro j hj
    have hne : j ≠ d := fun h => hdloc (h ▸ hj)
    rw [hinp, Function.update_of_ne hne]
    exact hW.injectStream j hj
  · rw [hrel]
    exact hW.home

/-- The flits of a packet are its pieces. -/
theorem keys_packetFlits (cycle : Counter) (req : NocReq) :
    (Router.packetFlits k cycle req).map key = pieces k.numFlit req := by
  simp [Router.packetFlits, pieces, key, Function.comp_def]

/-- A packet enters a local input buffer. -/
theorem WormInv.inject {cycle : Counter} {req : NocReq} (hW : WormInv k F w) (hp : c.p = .loc)
    (hinp : G.inp = Function.update F.inp c (F.inp c ++ Router.packetFlits k cycle req))
    (hout : G.out = F.out) (havail : G.avail = F.avail) (hport : G.outPort = F.outPort)
    (hvc : G.outVc = F.outVc) (hroute : G.route = F.route) (hrel : G.released = F.released) :
    WormInv k G w := by
  have hib : ∀ x ∈ Router.packetFlits k cycle req, x.state = .ib := by
    intro x hx
    simp only [Router.packetFlits, List.mem_map] at hx
    obtain ⟨j, -, rfl⟩ := hx
    rfl
  constructor
  · rw [hout, havail]
    exact hW.out_ok
  · intro j
    rw [hinp, hport]
    by_cases hj : j = c
    · subst hj
      rw [Function.update_self]
      exact (hW.in_ok j).append hib
    · rw [Function.update_of_ne hj]
      exact hW.in_ok j
  · rw [hport, hvc]
    exact hW.paired
  · intro c' j
    rw [Fabric.Names, hport, hvc]
    exact hW.src_iff c' j
  · intro c' j q hs ho
    have hcar := hW.carries c' j q hs ho
    rw [hinp]
    by_cases hj : j = c
    · subst hj
      rw [Function.update_self]
      exact hcar.append
    · rw [Function.update_of_ne hj]
      exact hcar
  · exact hW.leads
  · intro j
    rw [hinp, hroute]
    by_cases hj : j = c
    · subst hj
      rw [Function.update_self]
      exact (hW.routed j).append hib
    · rw [Function.update_of_ne hj]
      exact hW.routed j
  · intro c' d' hc' hd'
    have hne : d' ≠ c := fun h => (down_ne_loc hc' hd').2 (h ▸ hp)
    rw [hinp, hout, Function.update_of_ne hne]
    exact hW.linkStream c' d' hc' hd'
  · intro c' hp'
    rw [hrel, hout]
    exact hW.localStream c' hp'
  · intro j hj
    have hold := hW.injectStream j hj
    rw [hinp]
    by_cases hjc : j = c
    · subst hjc
      rw [Function.update_self, List.map_append, keys_packetFlits]
      exact accepts_append.mpr ⟨none, hold, accepts_pieces (numFlit_pos req)⟩
    · rw [Function.update_of_ne hjc]
      exact hold
  · rw [hrel]
    exact hW.home

end Steps

/-- The invariants of the fabric together. -/
structure FabricInv (k : NocKnobs) (F : Fabric) : Prop where
  legal : FlitsLegal k F
  credits : CreditInv k F
  worms : ∃ w, WormInv k F w

/-- The empty fabric keeps its invariant. -/
theorem fabricInv_empty : FabricInv k Fabric.empty :=
  ⟨flitsLegal_empty, creditInv_empty, Worms.none, wormInv_empty⟩

/-- Every move of the fabric keeps the invariants. -/
theorem FabricInv.step {F G : Fabric} (hF : FabricInv k F) (hs : F.Step k G) : FabricInv k G := by
  obtain ⟨hL, hC, w, hW⟩ := hF
  refine ⟨hL.step hs, hC.step hs, ?_⟩
  cases hs with
  | accept r req hr hdst => exact ⟨w, hW.of_same rfl rfl rfl rfl rfl rfl rfl⟩
  | inject c req rest cycle hc hp hw => exact ⟨w, hW.inject hp rfl rfl rfl rfl rfl rfl rfl⟩
  | computeRoute i f fs enabled dir hi hb hst hroute hdir hhead hring =>
      exact ⟨w, hW.computeRoute hL hC hi hb hst hhead hroute⟩
  | grantVc i c f fs hi hc hr hb hst hroute havail =>
      exact ⟨_, hW.grantVc hL hc hr hb hst hroute havail⟩
  | grantSwitch i f fs hi hb hst => exact ⟨w, hW.grantSwitch hL hC hi hb hst⟩
  | crossLocal i c f fs hi hn hb hst hp =>
      exact ⟨_, hW.cross hL hC hi hn hb rfl rfl rfl rfl rfl rfl rfl⟩
  | cross i c u f fs rdy hi hn hb hst hp hu =>
      exact ⟨_, hW.cross hL hC hi hn hb rfl rfl rfl rfl rfl rfl rfl⟩
  | eject c f fs hc hb hp => exact ⟨_, hW.eject hb hp rfl rfl rfl rfl rfl rfl rfl⟩
  | forward c d f fs rdy hc hb hp hd hcr =>
      exact ⟨_, hW.forward (g := { f with state := .ib, rdyCycle := rdy }) hc.1 hd hb rfl rfl rfl
        rfl rfl rfl rfl rfl rfl⟩
  | creditBack r kept rest cr hr hb => exact ⟨w, hW.of_same rfl rfl rfl rfl rfl rfl rfl⟩

/-- Every reachable network keeps the invariant of its fabric. -/
theorem fabricInv_reachable {net : Network} (h : net.Reachable k) : FabricInv k (net.fabric k) :=
  reachable_invariant fabricInv_empty (fun _ _ => FabricInv.step) h

/-! ## What the invariant says about a network -/

/-- The input channel `ip`, `iv` of a router names its output channel `p`, `v`. -/
def NamesChannel (rt : Router) (ip : Port) (iv : ℕ) (p : Port) (v : ℕ) : Prop :=
  rt.outputPortId ip iv = some p ∧ rt.outputVcId ip iv = some v

/-- The flit `g` comes right after `f`: a new packet starts after a tail, and otherwise the
packet goes on. -/
def FlitFollows (f g : Flit) : Prop :=
  if f.tail then g.head = true else g.req = f.req ∧ g.id = f.id + 1

/-- The buffer is one contiguous run of flits of a packet after the other. -/
def ContiguousRuns (buf : List Flit) : Prop := buf.IsChain FlitFollows

/-- Flits that are accepted one after the other form contiguous runs. -/
theorem contiguousRuns_of_accepts {e e' : Option (NocReq × ℕ)} {l : List Flit}
    (hl : ∀ f ∈ l, k.Legal f) (h : Accepts k.numFlit e (l.map key) e') : ContiguousRuns l := by
  have hchain := (List.isChain_map key).mp h.isChain
  refine hchain.imp_of_mem_imp fun f g hf hg hfg => ?_
  have hlf := hl f hf
  rw [Follows, afterPiece_key hlf] at hfg
  unfold FlitFollows
  split
  · rename_i ht
    rw [if_pos ht] at hfg
    exact (hl g hg).head_iff.mpr hfg
  · rename_i ht
    rw [if_neg ht] at hfg
    exact hfg

/-- The buffers of every channel of a router are contiguous runs. -/
theorem FabricInv.contiguous {F : Fabric} (hF : FabricInv k F) (c : Chan)
    (hc : c.r < k.numRouter) : ContiguousRuns (F.inp c) ∧ ContiguousRuns (F.out c) := by
  obtain ⟨hL, hC, w, hW⟩ := hF
  have hpart {e e' : Option (NocReq × ℕ)} {a b : List Flit} (ha : ∀ f ∈ a, k.Legal f)
      (hb : ∀ f ∈ b, k.Legal f) (h : Accepts k.numFlit e ((a ++ b).map key) e') :
      ContiguousRuns a ∧ ContiguousRuns b := by
    rw [List.map_append] at h
    obtain ⟨m, h1, h2⟩ := accepts_append.mp h
    exact ⟨contiguousRuns_of_accepts ha h1, contiguousRuns_of_accepts hb h2⟩
  constructor
  · by_cases hp : c.p = .loc
    · exact contiguousRuns_of_accepts (hL.inp c) (hW.injectStream c hp)
    · cases hd : k.down c with
      | none =>
          rw [hC.edge c hc hp hd]
          exact .nil
      | some u =>
          obtain ⟨hu, hback⟩ := down_symm hc hd
          exact (hpart (hL.inp c) (hL.out u) (hW.linkStream u c hu hback)).1
  · by_cases hp : c.p = .loc
    · exact (hpart (hL.released c.r c.v) (hL.out c) (hW.localStream c hp)).2
    · cases hd : k.down c with
      | some d => exact (hpart (hL.inp d) (hL.out c) (hW.linkStream c d hc hd)).2
      | none =>
          -- without a link nobody ever holds the channel
          cases ho : w.owner c with
          | none =>
              rw [((hW.out_ok c).free ho).2.1]
              exact .nil
          | some q =>
              rcases (hW.leads c q ho).2 with ⟨hloc, -⟩ | ⟨-, -, hl⟩
              · exact absurd hloc hp
              · simp only [NocKnobs.down, Option.map_eq_none_iff] at hd
                simp [hd] at hl

/-- The only fault of the fabric is the division by zero of a mesh with one virtual channel. -/
theorem FabricInv.fault {F : Fabric} (hF : FabricInv k F) {e : Fault} (he : F.FaultAt k e) :
    e = .divByZero ∧ k.topology = .mesh ∧ k.numVc = 1 := by
  obtain ⟨hL, hC, w, hW⟩ := hF
  cases he with
  | assertSt c f fs hc hb hst =>
      cases ho : w.owner c with
      | none => simp [((hW.out_ok c).free ho).2.1] at hb
      | some q => exact absurd (((hW.out_ok c).held q ho).2 f (by simp [hb])).2 hst
  | outNoLink c hc hp hl hb =>
      cases ho : w.owner c with
      | none => exact absurd ((hW.out_ok c).free ho).2.1 hb
      | some q =>
          rcases (hW.leads c q ho).2 with ⟨hloc, -⟩ | ⟨-, -, hs⟩
          · exact absurd hloc hp
          · simp [hl] at hs
  | inpNoLink i hi hp hl hb =>
      exact absurd (hC.edge i hi.1 hp (by simp [NocKnobs.down, hl])) hb
  | badVc i p hi hp hv =>
      have := hW.paired i
      simp [hp, hv] at this
  | rcIndex v e hv h =>
      unfold Router.rcIndex at h
      cases ht : k.topology with
      | ring => simp [ht] at h
      | mesh =>
          simp only [ht] at h
          split at h
          · rename_i h1
            cases h
            exact ⟨rfl, rfl, h1⟩
          · rename_i h1
            have : v / (k.numVc - 1) < 2 := by
              rw [Nat.div_lt_iff_lt_mul (by omega)]
              omega
            simp [this] at h

/-- A tick in a state that keeps the invariants succeeds, unless it divides by zero. -/
theorem runACycle_fault {net : Network} (hF : FabricInv k (net.fabric k)) {r : ℕ}
    (hr : r < k.numRouter) {now : Counter} {pllLock : Bool} {e : Fault}
    (h : net.runACycle k r now pllLock = .error e) :
    e = .divByZero ∧ k.topology = .mesh ∧ k.numVc = 1 := by
  have htr := runACycle_traces hr net now pllLock
  rw [h] at htr
  obtain ⟨m, hm, hf⟩ := htr
  have hinv : FabricInv k (m.fabric k) := by
    unfold Moves at hm
    generalize m.fabric k = G at hm
    induction hm with
    | refl => exact hF
    | tail _ hs ih => exact ih.step hs
  exact hinv.fault hf

/-- Wormhole ownership in every reachable network.  Each unavailable output channel has one
owner; while the owner's tail is in its input buffer exactly one input channel names the output
channel and carries the owner's flits, and afterwards none does and the tail is the last flit
of the output buffer.  All buffers are contiguous runs of packets, and no tick fails the
assertion of `stage_lt`: the only fault is the division of a mesh with one virtual channel. -/
theorem wormhole_ownership (k : NocKnobs) (net : Network) (h : net.Reachable k) :
    (∃ owner : ℕ → Port → ℕ → Option NocReq, ∀ r p v,
      ((net.router r).outputVcAvail p v = false ↔ (owner r p v).isSome) ∧
      (owner r p v = none → (net.router r).outputBuffer p v = [] ∧
        ∀ ip iv, ¬ NamesChannel (net.router r) ip iv p v) ∧
      ∀ q, owner r p v = some q →
        (∀ f ∈ (net.router r).outputBuffer p v, f.req = q) ∧
        ((∃ ip iv, NamesChannel (net.router r) ip iv p v ∧
            (∀ ip' iv', NamesChannel (net.router r) ip' iv' p v → ip' = ip ∧ iv' = iv) ∧
            (∀ f ∈ (net.router r).front ip iv, f.req = q) ∧
            ∀ f ∈ (net.router r).outputBuffer p v, f.tail = false) ∨
          ((∀ ip iv, ¬ NamesChannel (net.router r) ip iv p v) ∧
            ∃ l t, (net.router r).outputBuffer p v = l ++ [t] ∧ t.tail = true ∧
              ∀ f ∈ l, f.tail = false))) ∧
    (∀ r < k.numRouter, ∀ p v, ContiguousRuns ((net.router r).inputBuffer p v) ∧
      ContiguousRuns ((net.router r).outputBuffer p v)) ∧
    ∀ r < k.numRouter, ∀ now pllLock e, net.runACycle k r now pllLock = .error e →
      e = .divByZero ∧ k.topology = .mesh ∧ k.numVc = 1 := by
  have hF := fabricInv_reachable h
  refine ⟨?_, fun r hr p v => hF.contiguous ⟨r, p, v⟩ hr,
    fun r hr now pllLock e he => runACycle_fault hF hr he⟩
  obtain ⟨-, hC, w, hW⟩ := hF
  refine ⟨fun r p v => w.owner ⟨r, p, v⟩, fun r p v => ?_⟩
  have hoc := hW.out_ok ⟨r, p, v⟩
  have hnames (ip : Port) (iv : ℕ) : NamesChannel (net.router r) ip iv p v ↔
      w.src ⟨r, p, v⟩ = some ⟨r, ip, iv⟩ := by
    rw [hW.src_iff]
    exact ⟨fun h => ⟨rfl, h⟩, fun h => h.2⟩
  have hnone (hs : w.src ⟨r, p, v⟩ = none) (ip : Port) (iv : ℕ) :
      ¬ NamesChannel (net.router r) ip iv p v := by
    rw [hnames, hs]
    simp
  refine ⟨?_, fun ho => ⟨(hoc.free ho).2.1, hnone (hoc.free ho).2.2⟩, fun q ho => ?_⟩
  · cases ho : w.owner ⟨r, p, v⟩ with
    | none =>
        have : (net.router r).outputVcAvail p v = true := (hoc.free ho).1
        simp [this, ho]
    | some q =>
        have : (net.router r).outputVcAvail p v = false := (hoc.held q ho).1
        simp [this, ho]
  · refine ⟨fun f hf => ((hoc.held q ho).2 f hf).1, ?_⟩
    cases hs : w.src ⟨r, p, v⟩ with
    | none => exact .inr ⟨hnone hs, hoc.leaving q ho hs⟩
    | some i =>
        obtain ⟨ir, ip, iv⟩ := i
        have hn := (hW.src_iff _ _).mp hs
        obtain rfl : ir = r := hn.1
        refine .inl ⟨ip, iv, hn.2, fun ip' iv' h' => ?_, fun f hf => ?_, hoc.bound q _ ho hs⟩
        · have := (hnames ip' iv').mp h'
          rw [hs, Option.some.injEq, Chan.mk.injEq] at this
          exact ⟨this.2.1.symm, this.2.2.symm⟩
        · -- the front flit is of the packet that the channel carries
          have hcar := hW.carries _ _ q hs ho
          obtain ⟨fs, hb⟩ := front_eq_some.mp (Option.mem_def.mp hf)
          have hvalid := (hW.leads _ q ho).1
          have hexp := hW.expects_front hC (i := ⟨ir, ip, iv⟩) hvalid.1 hb
          cases he : w.expect ⟨ir, ip, iv⟩ with
          | none =>
              obtain ⟨g, hg, hgq⟩ := hcar.1 he
              have hfg : g ∈ (net.router ir).front ip iv := hg
              rw [Option.mem_def.mp hf] at hfg
              cases hfg
              exact hgq
          | some x =>
              rw [he] at hexp
              exact hexp.1.trans (hcar.2 x he)

/-- Router `0` of the ring has given a channel to the request, which is its owner. -/
theorem wormhole_ownership_twoRing : ∃ net, Network.Reachable twoRing net ∧
    (net.router 0).outputVcAvail .right 0 = false ∧
    (∃ q, ∀ f ∈ (net.router 0).outputBuffer .right 0, f.req = q) ∧
    ∀ now e, net.runACycle twoRing 0 now false ≠ .error e := by
  have hrun : (afterSend.ticks twoRing [(0, 0), (0, 1), (0, 2)]).toOption.map
      (fun net => (net.router 0).outputVcAvail .right 0) = some false := by decide +kernel
  obtain ⟨net, hnet, hav⟩ := exists_ok_of_observed hrun
  have hreach := afterSend_reachable.ticks (by decide) hnet
  obtain ⟨⟨owner, hown⟩, -, hfault⟩ := wormhole_ownership twoRing net hreach
  obtain ⟨hiff, -, hheld⟩ := hown 0 .right 0
  obtain ⟨q, hq⟩ := Option.isSome_iff_exists.mp (hiff.mp hav)
  refine ⟨net, hreach, hav, ⟨q, (hheld q hq).1⟩, fun now e he => ?_⟩
  have := (hfault 0 (by decide) now false e he).2.1
  cases this

end MacSim.Analysis
