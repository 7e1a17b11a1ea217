import MacSim.Analysis.CycleSpecs

/-!
# Every step is a sequence of moves

New requests and the accesses of the cores, and with them all actions of a run.  Two things
need care in `new_mem_req`: a flush frees only prefetches, which have no merged requests, so
it completes nothing; and a request that others are merged into is not a prefetch, also after
a flush.
-/

set_option autoImplicit false

namespace MacSim.Analysis

open MacSim.Model MacSim.Computation

variable {cfg : MemConfig} {sc : Scope} {s : Mem} {r : ReqId} {d : DcuId}

/-! ## New requests -/

/-- A request without merged requests is freed at once. -/
theorem freeReq_nil {w : DoneFunc → ReqId → Mem → Option (Mem × Bool)} {core : ℕ}
    (h : (s.req r).merge = []) : Mem.freeReq w core r s = some (s.clearReq core r) := by
  simp [Mem.freeReq, h]

/-- A flush gives no request merged requests and makes none a prefetch. -/
structure Flushed (s t : Mem) : Prop where
  merge : ∀ r, (s.req r).merge = [] → (t.req r).merge = []
  type : ∀ r, (s.req r).type ≠ .dprf → (t.req r).type ≠ .dprf

/-- A flush may do nothing. -/
theorem Flushed.refl (s : Mem) : Flushed s s := ⟨fun _ h => h, fun _ h => h⟩

/-- Two flushes in a row are one. -/
theorem Flushed.trans {s t u : Mem} (h : Flushed s t) (h' : Flushed t u) : Flushed s u :=
  ⟨fun r hr => h'.merge r (h.merge r hr), fun r hr => h'.type r (h.type r hr)⟩

/-- Freeing a request is what a flush may do. -/
theorem flushed_clearReq (core : ℕ) : Flushed s (s.clearReq core r) := by
  unfold Mem.clearReq
  split
  · exact ⟨fun _ h => h, fun _ h => h⟩
  · constructor
    · intro x hx
      by_cases hxr : x = r
      · subst hxr
        simpa [Mem.modReq, Mem.record, MemReq.init] using hx
      · simpa [Mem.modReq, Mem.record, hxr] using hx
    · intro x hx
      by_cases hxr : x = r
      · subst hxr
        simp [Mem.modReq, Mem.record, MemReq.init]
      · simpa [Mem.modReq, Mem.record, hxr] using hx

/-- Flushing the prefetches makes moves and is a flush. -/
theorem flushPrefetch_moves (hf : Fine cfg sc.strict s) (core : ℕ) :
    Ensures (s.flushPrefetch cfg core) fun t => MemMoves cfg sc s t ∧ Flushed s t := by
  unfold Mem.flushPrefetch
  dsimp only
  apply Ensures.foldlM
  · exact ⟨.refl, Flushed.refl s⟩
  · rintro t ⟨ht, hflush⟩ r hr
    obtain ⟨hmem, hprf⟩ := List.mem_filter.mp hr
    have hmerge : (s.req r).merge = [] := (of_decide_eq_true hprf).2
    have hentry : IsEntry r := hf.kinds.mshr core r hmem
    split
    · exact Ensures.of_some ⟨ht, hflush⟩
    · rename_i q hq
      have hpop : MemMoves cfg sc s (t.pop q r) := ht.trans (MemMove.pop q r).single
      have hfp := MemMoves.fine hpop hf
      have hmerge' : ((t.pop q r).req r).merge = [] := hflush.merge r hmerge
      rw [freeReq_nil hmerge']
      apply Ensures.of_some
      refine ⟨hpop.trans ?_, ?_⟩
      · apply clearReq_moves hfp core hentry.created
        · rintro n rfl
          exact hentry
        · exact hmerge'
        · intro ht
          cases r with
          | mshr c i => exact absurd ht (hfp.kinds.entry c i).1
          | pool n => exact hentry.elim
          | wb n => exact hentry.elim
      · have hsame : Flushed s (t.pop q r) := ⟨hflush.merge, hflush.type⟩
        exact hsame.trans (flushed_clearReq core)

/-- What issuing requests may do. -/
structure Issuing (sc : Scope) : Prop where
  issues : sc.issues
  queue : ∀ core, sc.queue ⟨⟨.l2, core⟩, .inQueue⟩

/-- Merging a request makes moves. -/
theorem mergeInto_moves {p : ReqId} (hsc : Issuing sc) (hp : IsEntry p) (hr : IsEntry r)
    (hprf : (s.req p).type ≠ .dprf) (priority : Counter) :
    MemMoves cfg sc s (s.mergeInto p r priority) := by
  unfold Mem.mergeInto
  extract_lets t u
  have ht : MemMoves cfg sc s t := (MemMove.link p r hsc.issues hp hr hprf).single
  have hu : MemMoves cfg sc t u := by
    apply tag_moves
    · constructor <;> rfl
    · simp
  refine (ht.trans hu).trans ?_
  apply tag_moves
  · constructor <;> rfl
  · exact id

/-- Launching a request makes moves. -/
theorem launch_moves {a : Mem.ReqArgs} {matching : Option ReqId} (hf : Fine cfg sc.strict s)
    (hsc : Issuing sc) (hr : Created (books s) r)
    (hmatch : cfg.writeThrough a.type a.ptx = false → ∀ p ∈ matching,
      IsEntry p ∧ (s.req p).type ≠ .dprf ∧ IsEntry r) :
    MemMoves cfg sc s (s.launch cfg a matching r) := by
  unfold Mem.launch
  cases matching with
  | none => exact insert_moves hf (hsc.queue _) hr
  | some p =>
      dsimp only
      split
      · exact insert_moves hf (hsc.queue _) hr
      · rename_i hwt
        obtain ⟨hp, hprf, hentry⟩ := hmatch (by simpa using hwt) p rfl
        exact mergeInto_moves hsc hp hentry hprf _

/-- The type of a request after another one was initialised. -/
theorem initNewReq_type {a : Mem.ReqArgs} {s' : Mem} (h : s.initNewReq cfg r a = some s')
    (ha : a.type ≠ .dprf) {p : ReqId} (hp : (s.req p).type ≠ .dprf) :
    (s'.req p).type ≠ .dprf := by
  unfold Mem.initNewReq at h
  split at h
  · cases h
    by_cases hpr : p = r
    · subst hpr
      simpa [Mem.modReq] using ha
    · simpa [Mem.modReq, hpr] using hp
  · cases h

/-- An entry is allocated and the request issued in it. -/
theorem allocated_moves {a : Mem.ReqArgs} {matching : Option ReqId} {t : Mem} {core : ℕ}
    (hf : Fine cfg sc.strict s) (hsc : Issuing sc) (htype : a.type ≠ .wb)
    (hwt : cfg.writeThrough a.type a.ptx = false)
    (hmatch : ∀ p ∈ matching, IsEntry p ∧ (s.req p).type ≠ .dprf ∧ a.type ≠ .dprf)
    (h : s.allocateNewEntry core = some (t, r)) :
    Ensures (t.issue cfg a matching r) fun s' => MemMoves cfg sc s s' := by
  have ht : MemMoves cfg sc s t := (MemMove.allocate core h).single
  obtain ⟨r', hlast, heq⟩ := Option.map_eq_some_iff.mp h
  obtain ⟨rfl, rfl⟩ := Prod.mk.inj heq
  have hentry : IsEntry r' := hf.kinds.lists (.free core) r' (List.mem_of_getLast? hlast)
  unfold Mem.issue
  intro s' hs'
  obtain ⟨u, hu, rfl⟩ := Option.map_eq_some_iff.mp hs'
  have hmoves : MemMoves cfg sc s u :=
    ht.trans (MemMove.start r' a hsc.issues hentry htype hwt hu).single
  refine hmoves.trans (launch_moves (MemMoves.fine hmoves hf) hsc hentry.created ?_)
  intro _ p hp
  obtain ⟨hentry', hprf, ha⟩ := hmatch p hp
  exact ⟨hentry', initNewReq_type hu ha hprf, hentry⟩

/-- After a flush a request has an entry, or the memory system is as it was. -/
theorem allocateAfterFlush_cases (s : Mem) (a : Mem.ReqArgs) :
    (∃ t r, s.allocateNewEntry a.coreId = some (t, r) ∧ s.allocateAfterFlush a = (t, some r)) ∨
      s.allocateAfterFlush a = (s, none) := by
  unfold Mem.allocateAfterFlush
  split
  · exact .inr rfl
  · cases h : s.allocateNewEntry a.coreId with
    | none => exact .inr rfl
    | some p => exact .inl ⟨p.1, p.2, rfl, rfl⟩

/-- The entry of a request that was accepted is created. -/
theorem acquireEntry_created {a : Mem.ReqArgs} {s' : Mem} (hk : Kinds cfg (books s))
    (h : s.acquireEntry.1.initNewReq cfg s.acquireEntry.2 a = some s') :
    Created (books s') s.acquireEntry.2 := by
  unfold Mem.initNewReq at h
  split at h
  · cases h
    unfold Mem.acquireEntry
    split
    · rename_i r rest hp
      obtain ⟨n, hn, rfl⟩ := hk.lists .pool r (by simp [books, held, hp])
      exact hn
    · exact Nat.lt_succ_self s.nextPool
  · cases h

/-- An entry is found, maybe after a flush, and the request issued in it. -/
theorem newEntry_moves {a : Mem.ReqArgs} {matching : Option ReqId} (hf : Fine cfg sc.strict s)
    (hsc : Issuing sc) (htype : a.type ≠ .wb)
    (hmatch : cfg.writeThrough a.type a.ptx = false → ∀ p ∈ matching,
      IsEntry p ∧ (s.req p).type ≠ .dprf ∧ a.type ≠ .dprf) :
    Ensures (s.newEntry cfg a) fun p =>
      (p.2 = none → MemMoves cfg sc s p.1) ∧
      ∀ r ∈ p.2, Ensures (p.1.issue cfg a matching r) fun s' => MemMoves cfg sc s s' := by
  unfold Mem.newEntry
  split
  · rename_i hwt
    apply Ensures.of_some
    refine ⟨fun h => (nomatch h), ?_⟩
    rintro r hr s' hs'
    obtain rfl := Option.some.inj hr
    obtain ⟨t, ht, rfl⟩ := Option.map_eq_some_iff.mp hs'
    have hmoves : MemMoves cfg sc s t := (MemMove.startPool a hsc.issues hwt ht).single
    refine hmoves.trans (launch_moves (MemMoves.fine hmoves hf) hsc ?_ ?_)
    · exact acquireEntry_created hf.kinds ht
    · intro hne
      rw [hwt] at hne
      cases hne
  · rename_i hwt
    have hwt : cfg.writeThrough a.type a.ptx = false := by simpa using hwt
    split
    · rename_i p halloc
      apply Ensures.of_some
      refine ⟨fun h => (nomatch h), ?_⟩
      rintro r hr
      obtain rfl := Option.some.inj hr
      exact allocated_moves hf hsc htype hwt (hmatch hwt) halloc
    · have hstop : MemMoves cfg sc s { s with stopPrefetch := s.cycle + 500 } :=
        (MemMove.aside (by constructor <;> rfl)).single
      refine Ensures.map (flushPrefetch_moves (MemMoves.fine hstop hf) a.coreId) ?_
      rintro t ⟨hmoves, hflush⟩
      have hst := hstop.trans hmoves
      obtain ⟨u, r, halloc, heq⟩ | heq := allocateAfterFlush_cases t a
      · rw [heq]
        refine ⟨fun h => (nomatch h), ?_⟩
        rintro r' hr'
        obtain rfl := Option.some.inj hr'
        refine MemMoves.andThen hst ?_
        apply allocated_moves (MemMoves.fine hst hf) hsc htype hwt _ halloc
        intro x hx
        obtain ⟨hentry, hprf, ha⟩ := hmatch hwt x hx
        exact ⟨hentry, hflush.type x hprf, ha⟩
      · rw [heq]
        exact ⟨fun _ => hst, fun r' hr' => nomatch hr'⟩

/-- Issuing a new request makes moves. -/
theorem issueNew_moves {a : Mem.ReqArgs} {matching : Option ReqId} (hf : Fine cfg sc.strict s)
    (hsc : Issuing sc) (htype : a.type ≠ .wb)
    (hmatch : cfg.writeThrough a.type a.ptx = false → ∀ p ∈ matching,
      IsEntry p ∧ (s.req p).type ≠ .dprf ∧ a.type ≠ .dprf) :
    Ensures (s.issueNew cfg a matching) fun p => MemMoves cfg sc s p.1 := by
  unfold Mem.issueNew
  dsimp only
  refine Ensures.bind (P := fun t => MemMoves cfg sc s t ∧ Flushed s t) ?_ ?_
  · split
    · have hstop : MemMoves cfg sc s { s with stopPrefetch := s.cycle + 500 } :=
        (MemMove.aside (by constructor <;> rfl)).single
      refine (flushPrefetch_moves (MemMoves.fine hstop hf) a.coreId).mono ?_
      rintro t ⟨hmoves, hflush⟩
      exact ⟨hstop.trans hmoves, hflush.merge, hflush.type⟩
    · exact Ensures.of_some ⟨.refl, Flushed.refl s⟩
  · rintro t ⟨ht, hflush⟩
    split
    · exact Ensures.of_some ht
    · have hmatch' : cfg.writeThrough a.type a.ptx = false → ∀ p ∈ matching,
          IsEntry p ∧ (t.req p).type ≠ .dprf ∧ a.type ≠ .dprf := by
        intro hwt p hp
        obtain ⟨hentry, hprf, ha⟩ := hmatch hwt p hp
        exact ⟨hentry, hflush.type p hprf, ha⟩
      refine Ensures.bind (newEntry_moves (MemMoves.fine ht hf) hsc htype hmatch') ?_
      rintro ⟨u, o⟩ ⟨hnone, hsome⟩
      cases o with
      | none => exact Ensures.of_some (ht.trans (hnone rfl))
      | some r => exact Ensures.map (hsome r rfl) fun v hv => ht.trans hv

/-- A request that matches is an entry. -/
theorem matchingReq_entry (hk : Kinds cfg (books s)) {addr : Addr} {size : ℕ} {p : ReqId}
    (h : s.matchingReq cfg addr size = some p) : IsEntry p := by
  obtain ⟨c, -, hc⟩ := List.exists_of_findSome?_eq_some h
  exact hk.mshr c p (List.mem_of_find?_eq_some hc)

/-- A new memory request makes moves. -/
theorem newMemReq_moves {a : Mem.ReqArgs} (hf : Fine cfg sc.strict s) (hsc : Issuing sc)
    (htype : a.type ≠ .wb) : Ensures (s.newMemReq cfg a) fun p => MemMoves cfg sc s p.1 := by
  unfold Mem.newMemReq
  split
  · exact Ensures.of_some .refl
  · dsimp only
    cases hp : s.matchingReq cfg a.addr a.size with
    | none =>
        apply issueNew_moves hf hsc htype
        rintro _ p hp
        cases hp
    | some p =>
        have hentry : IsEntry p := matchingReq_entry hf.kinds hp
        dsimp only
        split
        · rename_i hwt
          apply issueNew_moves hf hsc htype
          intro hne
          rw [hwt] at hne
          cases hne
        · rename_i hwt
          split
          · exact Ensures.of_some .refl
          · rename_i ha
            split
            · apply Ensures.of_some
              exact (MemMove.adjust p a hsc.issues hentry htype ha (by simpa using hwt)).single
            · rename_i hprf
              split
              · exact Ensures.of_none
              · apply issueNew_moves hf hsc htype
                rintro _ x hx
                obtain rfl := Option.some.inj hx
                exact ⟨hentry, hprf, ha⟩

/-! ## The access of a core -/

/-- The access of a port makes moves. -/
theorem accessPort_moves (cfg : MemConfig) (sc : Scope) (u : ℕ) :
    Ensures (Mem.accessPort cfg d u s) fun p => MemMoves cfg sc s p.1 := by
  unfold Mem.accessPort
  dsimp only
  split
  · exact Ensures.of_some .refl
  · split
    · exact (getWritePort_moves cfg sc _ _).mono fun p hp => hp.1
    · exact getReadPort_moves _ _

/-- A change of a uop is a move. -/
theorem modUop_moves (u : ℕ) (f : Uop → Uop) : MemMoves cfg sc s (s.modUop u f) := by
  apply MemMove.single
  apply MemMove.aside
  constructor <;> rfl

/-- An access that becomes a request makes moves. -/
theorem accessRequest_moves {a : Mem.ReqArgs} (hf : Fine cfg sc.strict s) (hsc : Issuing sc)
    (htype : a.type ≠ .wb) (u : ℕ) :
    Ensures (Mem.accessRequest cfg u a s) fun s' => MemMoves cfg sc s s' := by
  unfold Mem.accessRequest
  refine Ensures.map (newMemReq_moves hf hsc htype) fun p hp => ?_
  split
  · exact hp
  · exact hp.trans (modUop_moves u _)

/-- Invalidating a line keeps the parameters of the cache. -/
theorem invalidateCacheLine_param (c : Cache DcacheData) (a : Addr) :
    (c.invalidateCacheLine a).param = c.param := by
  unfold Cache.invalidateCacheLine
  split <;> rfl

/-- An access that hits makes moves. -/
theorem accessHit_moves {hit : Option (Slot × Cache DcacheData)} (hf : Fine cfg sc.strict s)
    (hsc : Issuing sc) (hd : sc.cache d) (u : ℕ)
    (hhit : ∀ p ∈ hit, ∃ c ∈ (s.dcu d).cache, p.2.param = c.param) :
    Ensures (Mem.accessHit cfg d u hit s) fun s' => MemMoves cfg sc s s' := by
  unfold Mem.accessHit
  extract_lets type t
  have ht : MemMoves cfg sc s t := by
    dsimp only [t]
    split
    · exact .refl
    · rename_i l c
      obtain ⟨c', hc', hparam⟩ := hhit (l, c) rfl
      apply setCache_moves hc'
      · split <;> exact hparam
      · exact .inl hd
  split
  · refine Ensures.bind (P := fun c => c ∈ (t.dcu d).cache) (fun c hc => hc) fun c hc => ?_
    have hinv : MemMoves cfg sc t (t.setCache d (c.invalidateCacheLine (t.uop u).paddr)) :=
      setCache_moves hc (invalidateCacheLine_param c _) (.inl hd)
    have hmoves := ht.trans hinv
    refine MemMoves.andThen hmoves ?_
    apply accessRequest_moves (MemMoves.fine hmoves hf) hsc
    simp [Mem.accessArgs]
  · exact Ensures.of_some ht

/-- A miss asks for no write-back. -/
theorem missType_ne_wb {m : MemType} {type : MemReqType} (h : Mem.missType m = some type) :
    type ≠ .wb := by
  cases m <;> simp [Mem.missType] at h <;> subst h <;> simp

/-- An access that misses makes moves. -/
theorem accessMiss_moves (hf : Fine cfg sc.strict s) (hsc : Issuing sc) (u : ℕ) :
    Ensures (Mem.accessMiss cfg d u s) fun s' => MemMoves cfg sc s s' := by
  unfold Mem.accessMiss
  extract_lets type t ack
  have ht : MemMoves cfg sc s t := modUop_moves u _
  refine Ensures.bind (P := fun x => x ≠ .wb) (fun x hx => missType_ne_wb hx) ?_
  intro reqType htype
  refine MemMoves.andThen ht ?_
  apply accessRequest_moves (MemMoves.fine ht hf) hsc
  exact htype

/-- An access makes moves. -/
theorem access_moves (hf : Fine cfg sc.strict s) (hsc : Issuing sc)
    (hd : ∀ d : DcuId, d.level = .l1 → sc.cache d) (u : ℕ) :
    Ensures (Mem.access cfg u s) fun s' => MemMoves cfg sc s s' := by
  unfold Mem.access
  extract_lets d t
  have ht : MemMoves cfg sc s t := modUop_moves u _
  refine Ensures.bind (accessPort_moves cfg sc u) fun p hp => ?_
  have hsp := ht.trans hp
  have hfp := MemMoves.fine hsp hf
  dsimp only
  refine MemMoves.andThen hsp ?_
  split
  · exact Ensures.of_some (modUop_moves u _)
  · split
    · apply accessHit_moves hfp hsc (hd d rfl)
      exact fun q hq => nomatch hq
    · split
      · exact accessMiss_moves hfp hsc u
      · refine Ensures.bind (P := fun c => c ∈ (p.1.dcu d).cache) (fun c hc => hc) fun c hc => ?_
        split
        · rename_i l c' hhit
          apply accessHit_moves hfp hsc (hd d rfl)
          intro q hq
          obtain rfl := Option.some.inj hq
          exact ⟨c, hc, (accessCache_hit hhit).2⟩
        · exact accessMiss_moves hfp hsc u

/-! ## Actions -/

/-- What happens outside the cycles of the levels: nothing completes. -/
def outside (strict : Prop) : Scope where
  cache _ := True
  queue _ := True
  completes _ := False
  issues := True
  waits := False
  strict := strict

/-- What a level does before it serves its fill queue: this queue does not grow. -/
def beforeFill (strict : Prop) (d : DcuId) : Scope where
  cache _ := False
  queue q := q ≠ ⟨d, .fillQueue⟩
  completes _ := False
  issues := False
  waits := False
  strict := strict

/-- What a level does in its cycle. -/
def inside (strict : Prop) : Scope where
  cache _ := True
  queue _ := True
  completes _ := True
  issues := False
  waits := True
  strict := strict

/-- What comes from outside issues requests. -/
theorem outside_issuing (strict : Prop) : Issuing (outside strict) := ⟨trivial, fun _ => trivial⟩

/-- What happens inside may complete every request. -/
theorem inside_completing (strict : Prop) (s : Mem) : Completing (inside strict) s :=
  ⟨id, fun _ _ => trivial, fun _ _ => trivial, fun _ _ _ _ => trivial⟩

/-- What happens inside may work at every cache unit. -/
theorem inside_working (strict : Prop) (d : DcuId) : Working (inside strict) d :=
  ⟨trivial, trivial, fun _ _ => trivial⟩

/-- What happens before the fills may work at every cache unit. -/
theorem beforeFill_working (strict : Prop) (d : DcuId) : Working (beforeFill strict d) d := by
  refine ⟨?_, ?_, fun q hq heq => ?_⟩
  · simp [beforeFill]
  · simp [beforeFill]
  · rw [heq] at hq
    exact hq rfl

section

variable {strict : Prop} {s' : Mem}

/-- A controller takes over a request. -/
theorem dramReceive_moves (hf : Fine cfg strict s) {mc : ℕ}
    (h : Mem.step cfg s (.dramReceive mc) = some s') : MemMoves cfg (outside strict) s s' := by
  unfold Mem.step at h
  dsimp only at h
  split at h
  · cases h
  · rename_i r rest hrx
    cases h
    have hcr : Created (books s) r :=
      hf.kinds.lists (.rx ⟨.mc, mc⟩) r (by simp [books, held, hrx])
    have htag : MemMoves cfg (outside strict) s
        (s.modReq r fun req => { req with state := .dramStart }) := by
      apply tag_moves
      · constructor <;> rfl
      · simp
    have hnote : MemMoves cfg (outside strict) s
        ((s.modReq r fun req => { req with state := .dramStart }).record (.toDram r)) :=
      htag.trans (note_moves trivial)
    have hfine : Fine cfg strict
        ((s.modReq r fun req => { req with state := .dramStart }).record (.toDram r)) :=
      MemMoves.fine hnote hf
    refine hnote.trans (MemMove.carry s.net _ _ ?_ ?_ ?_).single
    · intro p hp
      exact hfine.kinds.lists .net p.2 (List.mem_map_of_mem hp)
    · intro d x hx
      apply hfine.kinds.lists (.rx d) x
      by_cases hd : d = ⟨.mc, mc⟩
      · subst hd
        rw [Function.update_self] at hx
        change x ∈ s.rx ⟨.mc, mc⟩
        rw [hrx]
        exact List.mem_cons_of_mem r hx
      · rw [Function.update_of_ne hd] at hx
        exact hx
    · intro x hx
      rcases List.mem_append.mp hx with hx | hx
      · exact ⟨hfine.kinds.lists .dram x hx, .inl hx⟩
      · obtain rfl := List.mem_singleton.mp hx
        exact ⟨hnote.grows.created hcr, .inr List.mem_cons_self⟩

/-- A controller offers an answer to the network. -/
theorem dramSend_moves (hf : Fine cfg strict s) {i : ℕ} {accept : Bool}
    (h : Mem.step cfg s (.dramSend i accept) = some s') :
    MemMoves cfg (outside strict) s s' := by
  unfold Mem.step at h
  obtain ⟨r, hr, rfl⟩ := Option.map_eq_some_iff.mp h
  have hcr : Created (books s) r := hf.kinds.lists .dram r (List.mem_of_getElem? hr)
  extract_lets t
  have ht : MemMoves cfg (outside strict) s t := by
    apply tag_moves
    · constructor <;> rfl
    · exact id
  have hft : Fine cfg strict t := MemMoves.fine ht hf
  split
  · refine ht.trans (MemMove.carry _ t.rx _ ?_ ?_ ?_).single
    · intro p hp
      rcases List.mem_append.mp hp with hp | hp
      · exact hft.kinds.lists .net p.2 (List.mem_map_of_mem hp)
      · obtain rfl := List.mem_singleton.mp hp
        exact ht.grows.created hcr
    · exact fun d x hx => hft.kinds.lists (.rx d) x hx
    · intro x hx
      have hx := List.mem_of_mem_eraseIdx hx
      exact ⟨hft.kinds.lists .dram x hx, .inl hx⟩
  · exact ht

/-- A controller frees a write-back or a prefetch: nothing was merged into it. -/
theorem dramFree_moves (hf : Fine cfg strict s) {i : ℕ}
    (h : Mem.step cfg s (.dramFree i) = some s') : MemMoves cfg (outside strict) s s' := by
  unfold Mem.step at h
  obtain ⟨r, hr, h⟩ := Option.bind_eq_some_iff.mp h
  have hmem : r ∈ s.dram := List.mem_of_getElem? hr
  have hcr : Created (books s) r := hf.kinds.lists .dram r hmem
  split at h
  · rename_i htype
    have hmerge : (s.req r).merge = [] := by
      rcases htype with ht | ht
      · obtain ⟨n, -, rfl⟩ := hf.kinds.wb_of_type hcr ht
        by_contra hne
        obtain ⟨c, hc⟩ := List.exists_mem_of_ne_nil _ hne
        exact (hf.kinds.lists (.merged (.wb n)) c hc).1
      · exact hf.prf r ht
    rw [freeReq_nil (s := { s with dram := s.dram.eraseIdx i }) hmerge] at h
    cases h
    have hcarry : MemMoves cfg (outside strict) s { s with dram := s.dram.eraseIdx i } := by
      refine (MemMove.carry s.net s.rx _ ?_ ?_ ?_).single
      · exact fun p hp => hf.kinds.lists .net p.2 (List.mem_map_of_mem hp)
      · exact fun d x hx => hf.kinds.lists (.rx d) x hx
      · intro x hx
        have hx := List.mem_of_mem_eraseIdx hx
        exact ⟨hf.kinds.lists .dram x hx, .inl hx⟩
    refine hcarry.trans ?_
    apply clearReq_moves (MemMoves.fine hcarry hf)
    · exact hcr
    · rintro n rfl
      have hwt : cfg.writeThrough (s.req (.pool n)).type (s.req (.pool n)).acc = true :=
        hf.kinds.pool n hcr
      rcases htype with ht | ht <;> rw [ht] at hwt <;> simp [MemConfig.writeThrough] at hwt
    · exact hmerge
    · intro _ hs
      exact .inr ((hf.wb hs).dram r hmem)
  · cases h

/-- Every action but the cycle of a level. -/
theorem outside_moves (hf : Fine cfg strict s) {a : Action} (ha : ∀ d pll acc, a ≠ .cycle d pll acc)
    (h : Mem.step cfg s a = some s') : MemMoves cfg (outside strict) s s' := by
  cases a with
  | access u =>
      unfold Mem.step at h
      dsimp only at h
      split at h
      · exact access_moves hf (outside_issuing strict) (fun _ _ => trivial) u s' h
      · cases h
  | request a =>
      unfold Mem.step at h
      dsimp only at h
      split at h
      · rename_i hreq
        obtain ⟨p, hp, rfl⟩ := Option.map_eq_some_iff.mp h
        exact newMemReq_moves hf (outside_issuing strict) hreq.2 p hp
      · cases h
  | setUop u x =>
      cases h
      exact (MemMove.aside (by constructor <;> rfl)).single
  | cycle d pll acc => exact absurd rfl (ha d pll acc)
  | tick =>
      cases h
      exact (MemMove.aside (by constructor <;> rfl)).single
  | coreTick c =>
      cases h
      exact (MemMove.aside (by constructor <;> rfl)).single
  | simTick =>
      cases h
      exact (MemMove.aside (by constructor <;> rfl)).single
  | deliver i =>
      unfold Mem.step at h
      obtain ⟨p, hp, rfl⟩ := Option.map_eq_some_iff.mp h
      have hmem : p ∈ s.net := List.mem_of_getElem? hp
      refine carry_moves hf ?_ ?_
      · exact fun q hq => .inl (List.mem_of_mem_eraseIdx hq)
      · intro d r hr
        by_cases hd : d = p.1
        · subst hd
          rw [Function.update_self] at hr
          rcases List.mem_append.mp hr with hr | hr
          · exact .inl hr
          · obtain rfl := List.mem_singleton.mp hr
            exact .inr (hf.kinds.lists .net p.2 (List.mem_map_of_mem hmem))
        · rw [Function.update_of_ne hd] at hr
          exact .inl hr
  | dramReceive mc => exact dramReceive_moves hf h
  | dramAdvance i state rdy =>
      unfold Mem.step at h
      obtain ⟨r, hr, h⟩ := Option.bind_eq_some_iff.mp h
      split at h
      · rename_i hstate
        cases h
        apply tag_moves
        · constructor <;> rfl
        · rintro rfl
          simp at hstate
      · cases h
  | dramSend i acc => exact dramSend_moves hf h
  | dramFree i => exact dramFree_moves hf h
  | invalidate d addr =>
      unfold Mem.step at h
      obtain ⟨c, hc, rfl⟩ := Option.map_eq_some_iff.mp h
      exact setCache_moves hc (invalidateCacheLine_param c addr) (.inl trivial)

/-- The start of a cycle, up to the fill queue. -/
theorem beforeFill_moves (hf : Fine cfg strict s) :
    Ensures (Mem.processWbQueue cfg d (Mem.retryLoop cfg d (s.dcu d).retryQueue s []))
      fun t => MemMoves cfg (beforeFill strict d) s t := by
  have hretry : MemMoves cfg (beforeFill strict d) s
      (Mem.retryLoop cfg d (s.dcu d).retryQueue s []) := by
    apply retryLoop_moves
    · simp [beforeFill]
    · exact fun r hr => hf.kinds.lists (.retry d) r hr
    · exact fun r hr => nomatch hr
  refine MemMoves.andThen hretry ?_
  exact processWbQueue_moves (MemMoves.fine hretry hf)
    (beforeFill_working strict d)

/-- A cycle of a level.  A disabled level must not have a write-back to fill. -/
theorem runACycle_fine (hf : Fine cfg strict s) (accept : ReqId → Bool) (pllLock : Bool)
    (hwb : strict → (cfg.flags d).disable = true →
      ∀ r ∈ s.entries ⟨d, .fillQueue⟩, (s.req r).type ≠ .wb) :
    Ensures (Mem.runACycle cfg accept pllLock d s) fun s' => Fine cfg strict s' ∧ Grows s s' := by
  have hnext {t u : Mem} (ht : Fine cfg strict t ∧ Grows s t)
      (hm : MemMoves cfg (inside strict) t u) : Fine cfg strict u ∧ Grows s u :=
    ⟨MemMoves.fine hm ht.1, ht.2.trans hm.grows⟩
  unfold Mem.runACycle
  split
  · exact Ensures.of_some (hnext ⟨hf, Grows.refl s⟩ tickDcu_moves)
  · refine Ensures.bind (beforeFill_moves hf) fun t ht => ?_
    have hft : Fine cfg strict t := MemMoves.fine ht hf
    have hfill : Ensures (Mem.processFillQueue cfg d t) fun u =>
        MemMoves cfg (inside strict) t u := by
      apply processFillQueue_moves hft (inside_completing strict t) (inside_working strict d)
      · trivial
      · exact fun _ => trivial
      · exact fun _ _ _ => trivial
      · intro hs hdis r hr
        have hr' : r ∈ s.entries ⟨d, .fillQueue⟩ := ht.entries (by simp [beforeFill]) hr
        have hcr : Created (books s) r := hf.kinds.lists (.queue ⟨d, .fillQueue⟩) r hr'
        exact hf.kinds.type_ne_wb hft.kinds hcr (ht.grows.created hcr) (hwb hs hdis r hr')
    refine Ensures.bind hfill fun u hu => ?_
    have hfu := hnext ⟨hft, ht.grows⟩ hu
    have hout : Ensures (Mem.processOutQueue cfg accept d u) fun v =>
        MemMoves cfg (inside strict) u v := processOutQueue_moves hfu.1 accept
    refine Ensures.bind hout fun v hv => ?_
    have hfv := hnext hfu hv
    have hin : Ensures (Mem.processInQueue cfg d v) fun x => MemMoves cfg (inside strict) v x :=
      processInQueue_moves hfv.1 (inside_completing strict v) (inside_working strict d)
        fun _ _ => trivial
    refine Ensures.map hin fun x hx => ?_
    have hfx := hnext hfv hx
    have hrecv : MemMoves cfg (inside strict) x (Mem.receivePacket cfg d x) :=
      receivePacket_moves hfx.1 trivial trivial
    exact hnext hfx (hrecv.trans tickDcu_moves)

end

end MacSim.Analysis
