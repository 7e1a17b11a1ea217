import MacSim.Analysis.UopLifetime

/-!
# The physical resources of a core

Free entries and uops in the reorder buffers that hold one add up to the configured total.
A GPU core frees the reorder buffer of a thread that has retired enough instructions, and the
uops that are still in it never give their entries back.
-/

set_option autoImplicit false

namespace MacSim.Analysis

open MacSim.Model MacSim.Computation

namespace BackEnd

/-- A retirement loses no resource: the list of ready uops of a GPU core is used up in the
cycle, and a thread that ends with one of them has nothing else in its reorder buffer. -/
def EndsEmpty (k : BackKnobs) (s : BackEnd) : BackAct → Prop
  | .retire order => ListFits k s order ∧ (k.gpu = true → ∀ p ∈ s.readyUops order,
      ends k s p = true → (s.rob (s.heap p).threadId).entries = [p])
  | _ => True

/-- Adding a child changes neither the request of a uop nor the front-end queue. -/
theorem addChild_parent (s : BackEnd) (p : UopPtr) :
    ((BackEnd.addChild p s).heap p).req = (s.heap p).req ∧
      (BackEnd.addChild p s).frontendQ = s.frontendQ := by
  refine ⟨?_, rfl⟩
  unfold BackEnd.addChild BackEnd.newUop
  by_cases hc : p = (s.pool.acquire (uopPoolUnit - 1)).1
  · simp [BackEnd.setUop, ← hc]
  · simp [BackEnd.setUop, hc]

/-- A new uop has no resource. -/
theorem fetch_fresh (s : BackEnd) (n : NewUop) : ∃ p, (s.fetch n).frontendQ = s.frontendQ ++ [p] ∧
    ∀ r, ((s.fetch n).heap p).req r = false := by
  have hchildren : ∀ (m : ℕ) (p : UopPtr) (s : BackEnd),
      (((BackEnd.addChild p)^[m] s).heap p).req = (s.heap p).req ∧
        ((BackEnd.addChild p)^[m] s).frontendQ = s.frontendQ := by
    intro m p s
    induction m with
    | zero => exact ⟨rfl, rfl⟩
    | succ m ih =>
        rw [Function.iterate_succ_apply']
        obtain ⟨hreq, hq⟩ := addChild_parent ((BackEnd.addChild p)^[m] s) p
        exact ⟨hreq.trans ih.1, hq.trans ih.2⟩
  have hnew : ∀ r, ((s.newUop n.init).2.heap (s.newUop n.init).1).req r = false := fun r => by
    simp [BackEnd.newUop, NewUop.init]
  obtain ⟨hreq, hq⟩ := hchildren n.numChildUops (s.newUop n.init).1 (s.newUop n.init).2
  refine ⟨(s.newUop n.init).1, ?_, fun r => (congrFun hreq r).trans (hnew r)⟩
  exact congrArg (· ++ [(s.newUop n.init).1]) hq

/-- Fetching a uop keeps the resources. -/
theorem Resources.fetch {k : BackKnobs} {s : BackEnd} (hs : Held k s) (h : Resources k s)
    (n : NewUop) : Resources k (s.fetch n) := by
  obtain ⟨-, hg⟩ := hs.fetch n
  obtain ⟨p, hp, hfresh⟩ := fetch_fresh s n
  have hheap : ∀ q ∈ held s, (s.fetch n).heap q = s.heap q := fun q hq => hg.self hq
  obtain ⟨_, _, _, heq⟩ := hg.fields
  have hin : inRob (s.fetch n) = inRob s := (congrArg inRob heq :)
  have hfree : (s.fetch n).free = s.free := (congrArg BackEnd.free heq :)
  constructor
  · intro r
    have hcount : (inRob s).countP (fun q => ((s.fetch n).heap q).req r) =
        (inRob s).countP (fun q => (s.heap q).req r) :=
      List.countP_congr fun q hq => by
        rw [hheap q (List.mem_append_right _ (List.mem_append_left _ hq))]
    rw [hin, hfree, hcount]
    exact h.counts r
  · intro q hq r
    rw [hp] at hq
    rcases List.mem_append.mp hq with hq | hq
    · rw [hheap q (List.mem_append_left _ hq)]
      exact h.fresh q hq r
    · obtain rfl := List.mem_singleton.mp hq
      exact hfresh r

/-- What the push does to the heap and to the free entries. -/
theorem allocResource_req (s : BackEnd) (p : UopPtr) (req : Option PhysRes) (q : UopPtr)
    (r : PhysRes) : ((s.allocResource p req).heap q).req r =
      if q = p ∧ req = some r then true else (s.heap q).req r := by
  cases req with
  | none => simp [BackEnd.allocResource]
  | some c =>
      by_cases hq : q = p
      · subst hq
        by_cases hc : r = c
        · subst hc
          simp [BackEnd.allocResource, BackEnd.setUop]
        · have hcr : c ≠ r := fun h => hc h.symm
          simp [BackEnd.allocResource, BackEnd.setUop, hc, hcr]
      · simp [BackEnd.allocResource, BackEnd.setUop, hq]

/-- A resource that is taken is one less of its kind. -/
theorem allocResource_free (s : BackEnd) (p : UopPtr) (req : Option PhysRes) (r : PhysRes) :
    (s.allocResource p req).free r = s.free r - if req = some r then 1 else 0 := by
  cases req with
  | none => simp [BackEnd.allocResource]
  | some c =>
      by_cases hc : r = c
      · subst hc
        simp [BackEnd.allocResource]
      · have hcr : c ≠ r := fun h => hc h.symm
        simp [BackEnd.allocResource, hc, hcr]

/-- A push into the reorder buffer keeps the resources. -/
theorem Resources.push {k : BackKnobs} {s s' : BackEnd} {p : UopPtr} {rest : List UopPtr}
    (hs : Held k s) (h : Resources k s) (hp : Pushed k s s' p rest) : Resources k s' := by
  have hmem : p ∈ s.frontendQ := hp.front ▸ List.mem_cons_self
  have hperm := hp.inRob_perm hs.shape.nodup
  have hreq : ∀ q r, (s'.heap q).req r =
      if q = p ∧ BackEnd.requirement k (s.heap p) = some r then true else (s.heap q).req r := by
    intro q r
    obtain ⟨v, hv⟩ := hp.heap q
    rw [hv]
    exact allocResource_req s p _ q r
  have hnd : ((p :: rest) ++ (inRob s ++ s.writeBuffer)).Nodup := by
    have hflat := hs.books.owns.out_nodup
    have hheld : held s = (p :: rest) ++ (inRob s ++ s.writeBuffer) := by
      rw [held, hp.front]
    rw [← hheld]
    refine hflat.sublist ?_
    have hself : (held s).flatMap (fun q => [q]) = held s := by simp
    have := List.Sublist.flatMap_right (held s) (f := fun q => [q]) (g := s.own) fun q _ =>
      (List.nil_sublist _).cons_cons q
    rwa [hself] at this
  obtain ⟨heap, r₀, hfields, -⟩ := hp.fields
  constructor
  · intro r
    have hother : ∀ q ∈ inRob s, (s'.heap q).req r = (s.heap q).req r := by
      intro q hq
      have hne : q ≠ p := by
        rintro rfl
        exact (List.nodup_append.mp hnd).2.2 q List.mem_cons_self q
          (List.mem_append_left _ hq) rfl
      rw [hreq, if_neg fun hc => hne hc.1]
    have hcount : (inRob s).countP (fun q => (s'.heap q).req r) =
        (inRob s).countP (fun q => (s.heap q).req r) :=
      List.countP_congr fun q hq => by rw [hother q hq]
    have hfree : s'.free r = s.free r -
        if BackEnd.requirement k (s.heap p) = some r then 1 else 0 := by
      rw [hfields]
      exact allocResource_free s p _ r
    have hbefore := h.counts r
    rw [hperm.countP_eq, List.countP_cons, hcount, hfree, hreq p r]
    by_cases hc : BackEnd.requirement k (s.heap p) = some r
    · have hroom := hp.room r hc
      simp only [hc, and_self, if_true]
      omega
    · simp only [hc, and_false, if_false, h.fresh p hmem r, Bool.false_eq_true]
      omega
  · intro q hq r
    have hq' : q ∈ rest := by
      rw [hfields] at hq
      exact hq
    have hne : q ≠ p := by
      rintro rfl
      exact (List.nodup_cons.mp (List.nodup_append.mp hnd).1).1 hq'
    rw [hreq, if_neg fun hc => hne hc.1]
    exact h.fresh q (hp.front ▸ List.mem_cons_of_mem p hq') r

/-- The resources are right at the start. -/
theorem Resources.new (k : BackKnobs) : Resources k (BackEnd.new k) where
  counts r := by
    have hin : inRob (BackEnd.new k) = [] := by
      cases hk : k.gpu <;> simp [inRob, BackEnd.new, Rob.new, hk]
    rw [hin]
    rfl
  fresh p hp := by simp [BackEnd.new] at hp

/-- A step whose retirement loses nothing keeps the resources. -/
theorem Kept.step_resources {k : BackKnobs} {s s' : BackEnd} {a : BackAct}
    (hs : Kept k (Resources k) s) (hok : EndsEmpty k s a) (h : s.step k a = some s') :
    Kept k (Resources k) s' := by
  obtain ⟨hh, hlist, hres⟩ := hs
  cases a with
  | fetch n =>
      obtain rfl := Option.some.inj h
      obtain ⟨hh', hg⟩ := hh.fetch n
      obtain ⟨_, _, _, heq⟩ := hg.fields
      exact ⟨hh', (congrArg BackEnd.uopList heq).trans hlist, hres.fetch hh n⟩
  | allocate space =>
      rcases allocate_cases h with rfl | ⟨p, rest, hp⟩
      · exact ⟨hh, hlist, hres⟩
      · obtain ⟨_, _, heq, -⟩ := hp.fields
        exact ⟨hp.held hh, by rw [heq, hlist], hres.push hh hp⟩
  | execute p e d =>
      obtain rfl := Option.some.inj h
      have hreq : ∀ q, ((s.setUop p { s.heap p with execCycle := e, doneCycle := d }).heap q).req =
          (s.heap q).req := by
        intro q
        by_cases hq : q = p
        · subst hq
          simp [BackEnd.setUop]
        · simp [BackEnd.setUop, hq]
      refine ⟨hh.execute p e d, hlist, fun r => ?_, fun q hq r => ?_⟩
      · simp only [hreq]
        exact hres.counts r
      · rw [hreq]
        exact hres.fresh q hq r
  | startThread t =>
      obtain ⟨hs', hin⟩ := hh.startThread h
      obtain ⟨_, _, rfl | ⟨-, -, -, rfl⟩⟩ := startThread_cases h
      · exact ⟨hs', hlist, hres.counts, hres.fresh⟩
      · refine ⟨hs', hlist, fun r => ?_, hres.fresh⟩
        rw [hin]
        exact hres.counts r
  | tick =>
      obtain rfl := Option.some.inj h
      exact ⟨⟨hh.books.congr (SameIds.of_heap rfl) rfl rfl rfl,
        hh.shape.congr rfl (fun _ => rfl) rfl fun _ _ => ⟨rfl, rfl⟩⟩, hlist, hres.counts, hres.fresh⟩
  | retire order =>
      have h : (if order.Perm s.robs then s.retireCycle k order else none) = some s' := h
      split at h
      · rename_i horder
        obtain ⟨hfit, hend⟩ := hok
        have := retireCycle_rule (I := Resources k)
          (C := fun s p => ends k s p = true → (s.rob (s.heap p).threadId).entries = [p])
          (fun _ s s' p rest hh hi hc hleave => hleave.resources hh hi fun _ he => by
            have := hc he
            rw [hleave.front] at this
            exact (List.cons.inj this).2)
          (fun hcpu s s' p rest toWb hh hi hleave => hleave.resources hh hi fun hgpu => by
            rw [hcpu] at hgpu
            cases hgpu)
          (fun s l hi => ⟨hi.counts, hi.fresh⟩)
          (fun s s' q hv hc => by
            rw [ends_congr hv.heap hv.insts hv.finished, hv.heap, hv.entries]
            exact hc)
          (fun s s' hh hi hd => (hh.drainWb hd).2.2.2 hi)
          hh hres hlist horder hfit hend h
        exact ⟨this.1, this.2.2, this.2.1⟩
      · cases h

/-- In a run in which every thread that ends on a GPU core has an empty reorder buffer, the
free entries of each resource and the uops in the reorder buffers that hold one add up to the
total, so there are never more free entries than that.  On a CPU core this is every run. -/
theorem resources_conserved {k : BackKnobs} {acts : List BackAct} {s : BackEnd}
    (hok : EachStep (BackEnd.step k) (EndsEmpty k) (BackEnd.new k) acts)
    (hrun : (BackEnd.new k).run k acts = some s) (r : PhysRes) :
    s.free r + (inRob s).countP (fun p => (s.heap p).req r) = k.total r ∧
      s.free r ≤ k.total r := by
  have hkept := EachStep.invariant (I := Kept k (Resources k))
    (fun s a _ s' hs ha h => hs.step_resources ha h) ⟨Held.new k, rfl, Resources.new k⟩
    hok hrun
  have hcounts := hkept.2.2.counts r
  exact ⟨hcounts, by omega⟩

/-- The store of the CPU run gives its entry back. -/
theorem resources_conserved_cpu_store : ∃ s, (BackEnd.new (smallCore false 1000)).run
    (smallCore false 1000) oneStoreRun = some s ∧
      s.free .sb + (inRob s).countP (fun p => (s.heap p).req .sb) = 8 ∧ s.free .sb ≤ 8 := by
  obtain ⟨s, hrun⟩ : ∃ s, (BackEnd.new (smallCore false 1000)).run
      (smallCore false 1000) oneStoreRun = some s := ⟨_, rfl⟩
  refine ⟨s, hrun, resources_conserved ?_ hrun .sb⟩
  simp [EachStep, oneStoreRun, EndsEmpty, ListFits, smallCore]

/-- Two integer uops of thread 0, each an instruction of its own. -/
def intUop (num : ℕ) : NewUop := ⟨num, 0, .notMem, .iadd, .notBar, true, false, 0⟩

/-- The second uop is in the reorder buffer of the thread when the first one ends it, and its
register is lost: 7 of 8 are free and no uop has one. -/
theorem gpu_thread_end_loses_register : ∃ s, (BackEnd.new (smallCore true 1)).run
    (smallCore true 1)
    [.startThread 0, .fetch (intUop 1), .fetch (intUop 2), .allocate true, .allocate true,
      .execute 0 1 1, .tick, .retire [0]] = some s ∧
      s.free .intReg + (inRob s).countP (fun p => (s.heap p).req .intReg) ≠
        (smallCore true 1).total .intReg := by
  obtain ⟨s, hrun, hfree, hin⟩ : ∃ s, (BackEnd.new (smallCore true 1)).run
      (smallCore true 1)
      [.startThread 0, .fetch (intUop 1), .fetch (intUop 2), .allocate true, .allocate true,
        .execute 0 1 1, .tick, .retire [0]] = some s ∧ s.free .intReg = 7 ∧ inRob s = [] :=
    ⟨_, rfl, rfl, rfl⟩
  refine ⟨s, hrun, ?_⟩
  rw [hfree, hin]
  simp [smallCore]

end BackEnd

end MacSim.Analysis
