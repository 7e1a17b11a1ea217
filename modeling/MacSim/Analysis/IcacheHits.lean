import MacSim.Analysis.StepSpecs
import MacSim.Model.Constructed
import MacSim.Model.IcacheAccess

/-!
# Hits of the instruction cache

A hit of `access_icache` should be a line in the cache, and a miss a request on its way whose
fill lets the thread go on.  `access_icache` answers "miss" with `true`, and so does the memory
system when it accepts a request; the refusal of a request is passed on as `false`, which the
fetch loop takes for a hit.

The law therefore holds exactly when the line is present or the memory system accepts the
request.  It does so when a prefetch of the line can be promoted, or when an MSHR entry is
free, if need be after a flush of the prefetches that wait in a queue.
-/

set_option autoImplicit false

namespace MacSim.Analysis.Icache

open MacSim.Model MacSim.Computation

variable {cfg : MemConfig} {s t u : Mem} {r : ReqId} {core : ℕ}

/-! ## The condition -/

/-- A prefetch that a flush frees: nothing is merged into it and it waits in a queue. -/
def Flushable (s : Mem) (r : ReqId) : Prop :=
  (s.req r).type = .dprf ∧ (s.req r).merge = [] ∧ (s.req r).queue ≠ none

/-- A core has an MSHR entry for a request, maybe after a flush. -/
def HasEntry (s : Mem) (core : ℕ) : Prop :=
  s.mshrFreeList core ≠ [] ∨ ∃ r ∈ s.mshr core, Flushable s r

/-- The memory system has a prefetch that can be promoted to this request. -/
def Promotes (cfg : MemConfig) (s : Mem) (addr : Addr) (size : ℕ) : Prop :=
  ∃ p, s.matchingReq cfg addr size = some p ∧ (s.req p).type = .dprf

/-- The memory system takes a request of a core for these bytes. -/
def Accepts (cfg : MemConfig) (s : Mem) (core : ℕ) (addr : Addr) (size : ℕ) : Prop :=
  Promotes cfg s addr size ∨ HasEntry s core

/-! ## A flush -/

/-- What a flush of the prefetches of a core leaves alone, and that it only adds to the free
entries. -/
structure FlushKeeps (core : ℕ) (s t : Mem) : Prop where
  frontend : t.frontend = s.frontend
  flushed : Flushed s t
  mshr : ∀ x i, x ∈ s.mshr i → (s.req x).type ≠ .dprf → x ∈ t.mshr i
  free : (t.req = s.req ∧ t.mshrFreeList = s.mshrFreeList) ∨ t.mshrFreeList core ≠ []
  kept : s.mshrFreeList core ≠ [] → t.mshrFreeList core ≠ []

/-- A flush may do nothing. -/
theorem FlushKeeps.refl (core : ℕ) (s : Mem) : FlushKeeps core s s where
  frontend := rfl
  flushed := Flushed.refl s
  mshr _ _ hx _ := hx
  free := .inl ⟨rfl, rfl⟩
  kept h := h

/-- Taking a request out of a queue is what a flush may do. -/
theorem FlushKeeps.pop (h : FlushKeeps core s t) (q : QueueId) (r : ReqId) :
    FlushKeeps core s (t.pop q r) :=
  ⟨h.frontend, ⟨h.flushed.merge, h.flushed.type⟩, h.mshr, h.free, h.kept⟩

/-- The entries stay free, and the first prefetch that is freed leaves one. -/
theorem clearReq_free (hnone : t.req = s.req ∨ t.mshrFreeList core ≠ [])
    (hprf : (s.req r).type = .dprf) : (t.clearReq core r).mshrFreeList core ≠ [] := by
  unfold Mem.clearReq
  split
  · rename_i hwb
    obtain hreq | hfree := hnone
    · rw [hreq, hprf] at hwb
      cases hwb
    · exact hfree
  · simp

/-- Freeing a prefetch is what a flush may do. -/
theorem FlushKeeps.clearReq (h : FlushKeeps core s t) (hprf : (s.req r).type = .dprf) :
    FlushKeeps core s (t.clearReq core r) := by
  have hfree : (t.clearReq core r).mshrFreeList core ≠ [] := by
    apply clearReq_free _ hprf
    exact h.free.imp_left And.left
  refine ⟨?_, h.flushed.trans (flushed_clearReq core), ?_, .inr hfree, fun _ => hfree⟩
  · rw [← h.frontend]
    unfold Mem.clearReq
    split <;> rfl
  · intro x i hx htype
    have hne : x ≠ r := by
      rintro rfl
      exact htype hprf
    have hmem : x ∈ t.mshr i := h.mshr x i hx htype
    unfold Mem.clearReq
    split
    · exact hmem
    · by_cases hi : i = core
      · subst hi
        simpa [Mem.modReq, Mem.record, hne] using hmem
      · simpa [Mem.modReq, Mem.record, hi] using hmem

/-- The body of the loop of `flush_prefetch`. -/
def flushOne (cfg : MemConfig) (core : ℕ) (t : Mem) (r : ReqId) : Option Mem :=
  match (t.req r).queue with
  | none => some t
  | some q => Mem.freeReq (Mem.wrapper cfg (t.fuel cfg)) core r (t.pop q r)

/-- The flush treats the unmerged prefetches of the core one after the other. -/
theorem flushPrefetch_eq (cfg : MemConfig) (s : Mem) (core : ℕ) :
    s.flushPrefetch cfg core =
      ((s.mshr core).filter fun r => (s.req r).type = .dprf ∧ (s.req r).merge = []).foldlM
        (flushOne cfg core) s := by
  rfl

/-- Flushing one prefetch succeeds, and leaves an entry free when there was one or the prefetch was
queued. -/
theorem flushOne_spec (cfg : MemConfig) (h : FlushKeeps core s t) (hprf : (s.req r).type = .dprf)
    (hmerge : (s.req r).merge = []) :
    ∃ u, flushOne cfg core t r = some u ∧ FlushKeeps core s u ∧
      (t.mshrFreeList core ≠ [] ∨ Flushable s r → u.mshrFreeList core ≠ []) := by
  unfold flushOne
  cases hq : (t.req r).queue with
  | none =>
      refine ⟨t, rfl, h, ?_⟩
      rintro (hfree | hflush)
      · exact hfree
      · obtain ⟨hreq, -⟩ | hfree := h.free
        · rw [hreq] at hq
          exact absurd hq hflush.2.2
        · exact hfree
  | some q =>
      have hpop : FlushKeeps core s (t.pop q r) := h.pop q r
      have hmerge' : ((t.pop q r).req r).merge = [] := hpop.flushed.merge r hmerge
      refine ⟨(t.pop q r).clearReq core r, freeReq_nil hmerge', hpop.clearReq hprf, fun _ => ?_⟩
      apply clearReq_free _ hprf
      exact hpop.free.imp_left And.left

/-- The loop of a flush goes to its end; it leaves an entry free if one was free, or if it
came by a prefetch that a flush frees. -/
theorem flushLoop_spec (cfg : MemConfig) (l : List ReqId)
    (hl : ∀ r ∈ l, (s.req r).type = .dprf ∧ (s.req r).merge = []) (h : FlushKeeps core s t) :
    ∃ u, l.foldlM (flushOne cfg core) t = some u ∧ FlushKeeps core s u ∧
      (t.mshrFreeList core ≠ [] ∨ (∃ r ∈ l, Flushable s r) → u.mshrFreeList core ≠ []) := by
  induction l generalizing t with
  | nil =>
      refine ⟨t, rfl, h, ?_⟩
      rintro (hfree | ⟨r, hr, -⟩)
      · exact hfree
      · cases hr
  | cons r l ih =>
      obtain ⟨hprf, hmerge⟩ := hl r List.mem_cons_self
      obtain ⟨v, hv, hkeeps, hfrees⟩ := flushOne_spec cfg h hprf hmerge
      obtain ⟨u, hu, hkeeps', hfrees'⟩ := ih (fun x hx => hl x (List.mem_cons_of_mem r hx)) hkeeps
      refine ⟨u, ?_, hkeeps', ?_⟩
      · rw [List.foldlM_cons, hv]
        exact hu
      · rintro (hfree | ⟨x, hx, hflush⟩)
        · exact hfrees' (.inl (hfrees (.inl hfree)))
        · obtain rfl | hx := List.mem_cons.mp hx
          · exact hfrees' (.inl (hfrees (.inr hflush)))
          · exact hfrees' (.inr ⟨x, hx, hflush⟩)

/-- The loop of a flush that comes by nothing to free changes nothing. -/
theorem flushLoop_idle (l : List ReqId) (hl : ∀ r ∈ l, (s.req r).queue = none) :
    l.foldlM (flushOne cfg core) s = some s := by
  induction l with
  | nil => rfl
  | cons r l ih =>
      have hone : flushOne cfg core s r = some s := by
        unfold flushOne
        rw [hl r List.mem_cons_self]
      rw [List.foldlM_cons, hone]
      exact ih fun x hx => hl x (List.mem_cons_of_mem r hx)

/-- A flush succeeds, and leaves an entry free exactly if the core has one for a request. -/
theorem flushPrefetch_spec (cfg : MemConfig) (s : Mem) (core : ℕ) :
    ∃ t, s.flushPrefetch cfg core = some t ∧ FlushKeeps core s t ∧
      (HasEntry s core → t.mshrFreeList core ≠ []) ∧ (¬ HasEntry s core → t = s) := by
  have hprf : ∀ r ∈ (s.mshr core).filter fun r =>
      (s.req r).type = .dprf ∧ (s.req r).merge = [],
      r ∈ s.mshr core ∧ (s.req r).type = .dprf ∧ (s.req r).merge = [] := by
    intro r hr
    obtain ⟨hmem, hprf⟩ := List.mem_filter.mp hr
    exact ⟨hmem, of_decide_eq_true hprf⟩
  obtain ⟨t, ht, hkeeps, hfrees⟩ := flushLoop_spec cfg _
    (fun r hr => (hprf r hr).2) (FlushKeeps.refl core s)
  refine ⟨t, (flushPrefetch_eq cfg s core).trans ht, hkeeps, ?_, ?_⟩
  · rintro (hfree | ⟨r, hr, hflush⟩)
    · exact hfrees (.inl hfree)
    · refine hfrees (.inr ⟨r, List.mem_filter.mpr ⟨hr, ?_⟩, hflush⟩)
      exact decide_eq_true ⟨hflush.1, hflush.2.1⟩
  · intro hno
    refine Option.some.inj (ht.symm.trans (flushLoop_idle _ fun r hr => ?_))
    obtain ⟨hmem, htype, hmerge⟩ := hprf r hr
    by_contra hq
    exact hno (.inr ⟨r, hmem, htype, hmerge, hq⟩)

/-! ## A new request -/

/-- The data of a request is that of a call of `new_mem_req`. -/
structure Answers (t : Mem) (a : Mem.ReqArgs) (r : ReqId) : Prop where
  type : (t.req r).type = a.type
  addr : (t.req r).addr = a.addr
  coreId : (t.req r).coreId = a.coreId
  doneFunc : (t.req r).doneFunc = a.doneFunc

/-- A request for a call is in an MSHR and on its way: in the input queue of the L2 cache or its
retry queue, merged into another request, or a promoted prefetch of the state before. -/
structure Underway (s t : Mem) (a : Mem.ReqArgs) (r : ReqId) : Prop where
  data : Answers t a r
  outstanding : ∃ i, r ∈ t.mshr i
  travels : r ∈ t.entries ⟨⟨.l2, a.coreId⟩, .inQueue⟩ ∨ r ∈ (t.dcu ⟨.l2, a.coreId⟩).retryQueue ∨
    (∃ p i, p ∈ t.mshr i ∧ r ∈ (t.req p).merge) ∨ (s.req r).type = .dprf

/-- An answer is about the requests only. -/
theorem Answers.of_req {a : Mem.ReqArgs} (h : Answers t a r) (hreq : u.req = t.req) :
    Answers u a r := by
  constructor <;> rw [hreq]
  · exact h.type
  · exact h.addr
  · exact h.coreId
  · exact h.doneFunc

/-- A change that keeps type, address, core and callback keeps the answer. -/
theorem Answers.modReq {a : Mem.ReqArgs} (h : Answers t a r) (x : ReqId) {f : MemReq → MemReq}
    (hf : ∀ req, (f req).type = req.type ∧ (f req).addr = req.addr ∧
      (f req).coreId = req.coreId ∧ (f req).doneFunc = req.doneFunc) :
    Answers (t.modReq x f) a r := by
  by_cases hx : r = x
  · subst hx
    obtain ⟨htype, haddr, hcore, hdone⟩ := hf (t.req r)
    constructor <;> simp only [Mem.modReq, Function.update_self]
    · exact htype.trans h.type
    · exact haddr.trans h.addr
    · exact hcore.trans h.coreId
    · exact hdone.trans h.doneFunc
  · have hreq : (t.modReq x f).req r = t.req r := Function.update_of_ne hx _ _
    constructor <;> rw [hreq]
    · exact h.type
    · exact h.addr
    · exact h.coreId
    · exact h.doneFunc

/-- A push into a queue with room. -/
theorem push_answers (cfg : MemConfig) {q : QueueId} (hroom : t.full q = false) {a : Mem.ReqArgs}
    (h : Answers t a r) :
    ∃ u, t.push cfg q r = (u, true) ∧ Answers u a r ∧ u.mshr = t.mshr ∧
      u.frontend = t.frontend ∧ r ∈ u.entries q := by
  unfold Mem.push
  rw [if_neg (by rw [hroom]; decide)]
  refine ⟨_, rfl, ?_, rfl, rfl, ?_⟩
  · refine Answers.of_req (h.modReq r (f := fun req => { req with queue := some q }) ?_) rfl
    exact fun _ => ⟨rfl, rfl, rfl, rfl⟩
  · rw [entries_setEntries, if_pos rfl, Mem.sorted, List.mem_insertionSort]
    exact List.mem_append_right _ (List.mem_singleton_self r)

/-- The request that goes to a level of the hierarchy is in its input queue or its retry queue
afterwards. -/
theorem insert_travels (cfg : MemConfig) {a : Mem.ReqArgs} (d : DcuId) (h : Answers t a r) :
    Answers (t.insert cfg d r).1 a r ∧ (t.insert cfg d r).1.mshr = t.mshr ∧
      (t.insert cfg d r).1.frontend = t.frontend ∧
      (r ∈ (t.insert cfg d r).1.entries ⟨d, .inQueue⟩ ∨
        r ∈ ((t.insert cfg d r).1.dcu d).retryQueue) := by
  unfold Mem.insert
  cases hfull : t.full ⟨d, .inQueue⟩ with
  | true =>
      have hpush : t.push cfg ⟨d, .inQueue⟩ r = (t, false) := by
        unfold Mem.push
        rw [if_pos hfull]
      rw [hpush]
      refine ⟨h.of_req rfl, rfl, rfl, .inr ?_⟩
      simp [Mem.modDcu]
  | false =>
      obtain ⟨u, hpush, hdata, hmshr, hfrontend, hmem⟩ := push_answers cfg hfull h
      rw [hpush]
      simp only [if_true]
      refine ⟨?_, hmshr, hfrontend, .inl hmem⟩
      apply hdata.modReq
      exact fun _ => ⟨rfl, rfl, rfl, rfl⟩

/-- A new request answers its call and leaves the MSHRs and frontends alone. -/
theorem initNewReq_spec {a : Mem.ReqArgs} (h : t.initNewReq cfg r a = some u) :
    Answers u a r ∧ u.mshr = t.mshr ∧ u.frontend = t.frontend := by
  unfold Mem.initNewReq at h
  split at h
  · obtain rfl := Option.some.inj h
    refine ⟨?_, rfl, rfl⟩
    constructor <;> simp [Mem.modReq]
  · cases h

/-- A request that is merged still answers its call and is among the merged ones. -/
theorem mergeInto_travels {a : Mem.ReqArgs} (p : ReqId) (priority : Counter)
    (h : Answers t a r) :
    Answers (t.mergeInto p r priority) a r ∧ r ∈ ((t.mergeInto p r priority).req p).merge := by
  unfold Mem.mergeInto
  constructor
  · refine Answers.modReq (Answers.modReq (Answers.modReq h p ?_) r ?_) p ?_
    · exact fun _ => ⟨rfl, rfl, rfl, rfl⟩
    · exact fun _ => ⟨rfl, rfl, rfl, rfl⟩
    · exact fun _ => ⟨rfl, rfl, rfl, rfl⟩
  · by_cases hp : p = r
    · subst hp
      simp [Mem.modReq]
    · simp [Mem.modReq, hp]

/-- A request that was put into an MSHR entry is issued. -/
theorem issue_underway (s : Mem) {a : Mem.ReqArgs} {matching : Option ReqId} {i : ℕ}
    (hr : r ∈ t.mshr i) (hthrough : cfg.writeThrough a.type a.ptx = false)
    (hmatching : ∀ p ∈ matching, ∃ j, p ∈ t.mshr j) :
    Ensures (t.issue cfg a matching r) fun u =>
      u.frontend = t.frontend ∧ Underway s u a r := by
  unfold Mem.issue
  intro w hw
  obtain ⟨u, hu, rfl⟩ := Option.map_eq_some_iff.mp hw
  obtain ⟨hdata, hmshr, hfrontend⟩ := initNewReq_spec hu
  unfold Mem.launch
  cases matching with
  | none =>
      obtain ⟨hdata', hmshr', hfrontend', htravels⟩ :=
        insert_travels cfg ⟨.l2, a.coreId⟩ hdata
      refine ⟨hfrontend'.trans hfrontend, hdata', ⟨i, ?_⟩, ?_⟩
      · rw [hmshr', hmshr]
        exact hr
      · exact htravels.imp_right .inl
  | some p =>
      obtain ⟨j, hp⟩ := hmatching p rfl
      obtain ⟨hdata', hmerge⟩ := mergeInto_travels p a.type.priority hdata
      dsimp only
      rw [if_neg (by rw [hthrough]; decide)]
      refine ⟨hfrontend, hdata', ⟨i, ?_⟩, ?_⟩
      · exact hmshr ▸ hr
      · exact .inr (.inr (.inl ⟨p, j, hmshr ▸ hp, hmerge⟩))

/-- A free entry is taken into the MSHR of the core. -/
theorem allocateNewEntry_spec (hfree : t.mshrFreeList core ≠ []) :
    ∃ u x, t.allocateNewEntry core = some (u, x) ∧ u.frontend = t.frontend ∧
      x ∈ u.mshr core ∧ ∀ p i, p ∈ t.mshr i → p ∈ u.mshr i := by
  obtain ⟨x, hx⟩ := List.getLast?_isSome.mpr hfree |> Option.isSome_iff_exists.mp
  unfold Mem.allocateNewEntry
  rw [hx]
  refine ⟨_, x, rfl, rfl, ?_, ?_⟩
  · simp
  · intro p i hp
    by_cases hi : i = core
    · subst hi
      simp [hp]
    · simp [hi, hp]

/-- The time at which prefetches stop does not matter for a free entry. -/
theorem hasEntry_stop (n : Counter) :
    HasEntry { s with stopPrefetch := n } core ↔ HasEntry s core := Iff.rfl

/-- The entry for a demand request: there is one exactly if the core has one, at once or after
a flush. -/
theorem newEntry_spec (cfg : MemConfig) (s : Mem) {a : Mem.ReqArgs} (hprf : a.type ≠ .dprf)
    (hthrough : cfg.writeThrough a.type a.ptx = false) :
    (HasEntry s a.coreId → ∃ t x, s.newEntry cfg a = some (t, some x) ∧
      t.frontend = s.frontend ∧ x ∈ t.mshr a.coreId ∧
      ∀ p i, p ∈ s.mshr i → (s.req p).type ≠ .dprf → p ∈ t.mshr i) ∧
    (¬ HasEntry s a.coreId → ∃ t, s.newEntry cfg a = some (t, none) ∧
      t.frontend = s.frontend) := by
  unfold Mem.newEntry
  rw [if_neg (by rw [hthrough]; decide)]
  by_cases hfree : s.mshrFreeList a.coreId = []
  · have hnone : s.allocateNewEntry a.coreId = none := by simp [Mem.allocateNewEntry, hfree]
    obtain ⟨t, ht, hkeeps, hsome, hno⟩ :=
      flushPrefetch_spec cfg { s with stopPrefetch := s.cycle + 500 } a.coreId
    rw [hasEntry_stop] at hsome hno
    rw [hnone]
    dsimp only
    rw [ht, Option.map_some]
    unfold Mem.allocateAfterFlush
    rw [if_neg hprf]
    constructor
    · intro hentry
      obtain ⟨u, x, hu, hfrontend, hx, hmem⟩ := allocateNewEntry_spec (hsome hentry)
      rw [hu]
      exact ⟨u, x, rfl, hfrontend.trans hkeeps.frontend, hx, fun p i hp htype =>
        hmem p i (hkeeps.mshr p i hp htype)⟩
    · intro hentry
      obtain rfl := hno hentry
      have hnone' : Mem.allocateNewEntry { s with stopPrefetch := s.cycle + 500 } a.coreId =
          none := by
        simp [Mem.allocateNewEntry, hfree]
      rw [hnone']
      exact ⟨_, rfl, rfl⟩
  · obtain ⟨u, x, hu, hfrontend, hx, hmem⟩ := allocateNewEntry_spec hfree
    rw [hu]
    exact ⟨fun _ => ⟨u, x, rfl, hfrontend, hx, fun p i hp _ => hmem p i hp⟩,
      fun hno => absurd (.inl hfree) hno⟩

/-- A demand request behind the search: it is issued exactly if the core has an entry for it. -/
theorem issueNew_spec (cfg : MemConfig) (s : Mem) {a : Mem.ReqArgs} {matching : Option ReqId}
    (hprf : a.type ≠ .dprf) (hthrough : cfg.writeThrough a.type a.ptx = false)
    (hmatching : ∀ p ∈ matching, (s.req p).type ≠ .dprf ∧ ∃ j, p ∈ s.mshr j) :
    Ensures (s.issueNew cfg a matching) fun p =>
      p.1.frontend = s.frontend ∧ (p.2 = true ↔ HasEntry s a.coreId) ∧
        (p.2 = true → ∃ r, Underway s p.1 a r) := by
  unfold Mem.issueNew
  dsimp only
  refine Ensures.bind (P := fun t => FlushKeeps a.coreId s t ∧
    (HasEntry t a.coreId ↔ HasEntry s a.coreId)) ?_ ?_
  · split
    · obtain ⟨t, ht, hkeeps, hsome, hno⟩ :=
        flushPrefetch_spec cfg { s with stopPrefetch := s.cycle + 500 } a.coreId
      rw [hasEntry_stop] at hsome hno
      rw [ht]
      apply Ensures.of_some
      refine ⟨⟨hkeeps.frontend, ⟨hkeeps.flushed.merge, hkeeps.flushed.type⟩, hkeeps.mshr,
        hkeeps.free, hkeeps.kept⟩, ?_⟩
      by_cases hentry : HasEntry s a.coreId
      · exact iff_of_true (.inl (hsome hentry)) hentry
      · rw [hno hentry, hasEntry_stop]
    · exact Ensures.of_some ⟨FlushKeeps.refl _ s, Iff.rfl⟩
  · rintro t ⟨hkeeps, hiff⟩
    rw [if_neg (fun h => hprf h.2.2)]
    obtain ⟨hsome, hno⟩ := newEntry_spec cfg t hprf hthrough
    by_cases hentry : HasEntry s a.coreId
    · obtain ⟨u, x, hu, hfrontend, hx, hmem⟩ := hsome (hiff.mpr hentry)
      rw [hu, Option.bind_some]
      refine Ensures.map (issue_underway s hx hthrough ?_) ?_
      · intro p hp
        obtain ⟨htype, j, hj⟩ := hmatching p hp
        exact ⟨j, hmem p j (hkeeps.mshr p j hj htype) (hkeeps.flushed.type p htype)⟩
      · rintro w ⟨hw, hunder⟩
        exact ⟨(hw.trans hfrontend).trans hkeeps.frontend, by simp [hentry], fun _ => ⟨x, hunder⟩⟩
    · obtain ⟨u, hu, hfrontend⟩ := hno (mt hiff.mp hentry)
      rw [hu, Option.bind_some]
      apply Ensures.of_some
      refine ⟨hfrontend.trans hkeeps.frontend, ?_, ?_⟩
      · simp [hprf, hentry]
      · simp [hprf]

/-- A matching request is in the MSHR of some core. -/
theorem matchingReq_mem {addr : Addr} {size : ℕ} {p : ReqId}
    (h : s.matchingReq cfg addr size = some p) : ∃ j, p ∈ s.mshr j := by
  obtain ⟨j, -, hj⟩ := List.exists_of_findSome?_eq_some h
  exact ⟨j, List.mem_of_find?_eq_some hj⟩

/-- A request of a front end: the memory system answers whether it accepts it, and what it
accepted is on its way. -/
theorem newMemReq_spec (cfg : MemConfig) (s : Mem) {a : Mem.ReqArgs} (hifetch : a.type = .ifetch) :
    Ensures (s.newMemReq cfg a) fun p =>
      p.1.frontend = s.frontend ∧ (p.2 = true ↔ Accepts cfg s a.coreId a.addr a.size) ∧
        (p.2 = true → ∃ r, Underway s p.1 a r) := by
  have hprf : a.type ≠ .dprf := by rw [hifetch]; decide
  have hwb : a.type ≠ .wb := by rw [hifetch]; decide
  have hthrough : cfg.writeThrough a.type a.ptx = false := by
    simp [MemConfig.writeThrough, hifetch]
  unfold Mem.newMemReq
  rw [if_neg fun h => hprf h.2]
  dsimp only
  cases hp : s.matchingReq cfg a.addr a.size with
  | none =>
      have hno : ¬ Promotes cfg s a.addr a.size := by
        rintro ⟨p, hp', -⟩
        rw [hp] at hp'
        cases hp'
      refine (issueNew_spec cfg s hprf hthrough ?_).mono ?_
      · intro p hp'
        cases hp'
      · rintro x ⟨hfrontend, haccept, hunder⟩
        exact ⟨hfrontend, haccept.trans (or_iff_right hno).symm, hunder⟩
  | some p =>
      obtain ⟨j, hj⟩ := matchingReq_mem hp
      dsimp only
      rw [if_neg (by rw [hthrough]; decide), if_neg hwb, if_neg hprf]
      split
      · rename_i hpref
        apply Ensures.of_some
        refine ⟨rfl, iff_of_true rfl (.inl ⟨p, hp, hpref⟩), fun _ => ⟨p, ?_, ⟨j, hj⟩, ?_⟩⟩
        · constructor <;> simp [Mem.adjustReq, Mem.modReq]
        · exact .inr (.inr (.inr hpref))
      · rename_i hpref
        have hno : ¬ Promotes cfg s a.addr a.size := by
          rintro ⟨q, hq, htype⟩
          obtain rfl := Option.some.inj (hp.symm.trans hq)
          exact hpref htype
        split
        · exact Ensures.of_none
        · refine (issueNew_spec cfg s hprf hthrough ?_).mono ?_
          · intro q hq
            obtain rfl := Option.some.inj hq
            exact ⟨hpref, j, hj⟩
          · rintro x ⟨hfrontend, haccept, hunder⟩
            exact ⟨hfrontend, haccept.trans (or_iff_right hno).symm, hunder⟩

/-! ## The access -/

/-- The line of an address is in the instruction cache of a core. -/
def IcacheHolds (s : Mem) (core : ℕ) (addr : Addr) : Prop :=
  ((s.frontend core).icache.lookup addr).isSome

/-- The address of a line in the instruction cache of a core. -/
def icacheLine (s : Mem) (core : ℕ) (addr : Addr) : Addr :=
  (s.frontend core).icache.param.baseCacheLine addr

/-- What an access that returns does: it hits if the line is present, and else answers whether
its request was accepted. -/
theorem accessIcache_spec (cfg : MemConfig) {k : IcacheKnobs} (s : Mem) {tid : ℕ} {addr : Addr}
    {miss : Bool} (hperfect : k.perfectIcache = false) (haddr : addr ≠ 0)
    (h : s.accessIcache cfg k core tid addr = some (t, miss)) :
    (IcacheHolds s core addr ∧ miss = CACHE_HIT ∧ IcacheHolds t core addr) ∨
    (¬ IcacheHolds s core addr ∧
      ¬ Accepts cfg s core (icacheLine s core addr) k.icacheLineSize ∧ miss = CACHE_HIT ∧
      t.frontend = s.frontend) ∨
    (¬ IcacheHolds s core addr ∧
      Accepts cfg s core (icacheLine s core addr) k.icacheLineSize ∧ miss = CACHE_MISS ∧
      (t.frontend core).fetchReadyAddr tid = some (icacheLine s core addr) ∧
      ∃ r, Underway s t (Mem.ifetchArgs k core tid (icacheLine s core addr)) r) := by
  unfold Mem.accessIcache at h
  dsimp only at h
  rw [if_neg haddr, if_neg (by rw [hperfect]; decide)] at h
  split at h
  · cases h
  · rename_i hbypass
    cases hx : (s.frontend core).icache.accessCache s.simCycle addr true with
    | mk found icache =>
        rw [hx] at h
        cases found with
        | some l =>
            obtain ⟨rfl, rfl⟩ := Prod.mk.inj (Option.some.inj h)
            refine .inl ⟨?_, rfl, ?_⟩
            · by_contra habsent
              have hl : (s.frontend core).icache.lookup addr = none := by
                simpa [IcacheHolds] using habsent
              simp [Cache.accessCache, hl] at hx
            · simp [IcacheHolds, Mem.setIcache, (accessCache_hit hx).1]
        | none =>
            obtain ⟨rfl, hnone⟩ := accessCache_miss hx
            have habsent : ¬ IcacheHolds s core addr := by
              simp [IcacheHolds, hnone (by simpa using hbypass)]
            have hsame : s.setIcache core (s.frontend core).icache = s := by
              simp [Mem.setIcache]
            dsimp only at h
            rw [hsame] at h
            obtain ⟨p, hp, heq⟩ := Option.map_eq_some_iff.mp h
            obtain ⟨hfrontend, haccept, hunder⟩ := newMemReq_spec cfg s rfl p hp
            cases hok : p.2 with
            | false =>
                rw [if_pos hok] at heq
                obtain ⟨rfl, rfl⟩ := Prod.mk.inj heq
                refine .inr (.inl ⟨habsent, ?_, rfl, hfrontend⟩)
                exact mt haccept.mpr (by simp [hok])
            | true =>
                rw [if_neg (by rw [hok]; decide)] at heq
                obtain ⟨rfl, rfl⟩ := Prod.mk.inj heq
                obtain ⟨r, hr⟩ := hunder hok
                refine .inr (.inr ⟨habsent, haccept.mp hok, rfl, ?_, r, ?_⟩)
                · simp [Mem.setFetchReadyAddr, icacheLine]
                · exact ⟨hr.data.of_req rfl, hr.outstanding, hr.travels⟩

/-! ## The law -/

/-- Whenever the fill of a request is served while the thread waits for its line, the thread
goes on. -/
def Wakes (cfg : MemConfig) (core tid : ℕ) (line : Addr) (r : ReqId) : Prop :=
  ∀ t u : Mem, (t.req r).addr = line → (t.req r).coreId = core →
    (t.frontend core).lastTerminatedTid ≤ tid →
    tid < (t.frontend core).uniqueScheduledThreadNum →
    (t.frontend core).fetchReadyAddr tid = some line → t.icacheFillLine cfg r = some u →
    (u.frontend core).fetchReadyAddr tid = some 0

/-- Every request wakes the thread that waits for its line. -/
theorem wakes (cfg : MemConfig) (core tid : ℕ) (line : Addr) (r : ReqId) :
    Wakes cfg core tid line r := by
  rintro t u haddr hcore hlast hscheduled hready hu
  unfold Mem.icacheFillLine at hu
  dsimp only at hu
  obtain ⟨icache, -, rfl⟩ := Option.map_eq_some_iff.mp hu
  subst hcore
  simp [hlast, hscheduled, hready, haddr]

/-- An access of the instruction cache is right about the line: it answers "hit", and uops are
delivered, only if the line is present; when it answers "miss", a request for the line is on
its way, the thread waits for it, and the fill of the request wakes the thread. -/
structure IcacheLaw (cfg : MemConfig) (k : IcacheKnobs) (s : Mem) (core tid : ℕ) (addr : Addr)
    (t : Mem) (miss : Bool) : Prop where
  hit : miss = CACHE_HIT → IcacheHolds t core addr
  delivers : ∀ (α : Type) (processId : ℕ) (nextFetchAddr : Addr) (space : ℕ) (uops us : List α)
    (u : Mem), s.fetchAddr core processId nextFetchAddr = addr →
    s.deliver cfg k core tid processId nextFetchAddr space uops = some (u, us) → us ≠ [] →
    IcacheHolds u core addr
  ready : miss = CACHE_MISS →
    (t.frontend core).fetchReadyAddr tid = some (icacheLine s core addr)
  request : miss = CACHE_MISS →
    ∃ r, Underway s t (Mem.ifetchArgs k core tid (icacheLine s core addr)) r ∧
      Wakes cfg core tid (icacheLine s core addr) r

/-- Uops are delivered only on a hit. -/
theorem deliver_hit {α : Type} {k : IcacheKnobs} {tid processId : ℕ} {nextFetchAddr : Addr}
    {space : ℕ} {uops us : List α} {miss : Bool}
    (h : s.accessIcache cfg k core tid (s.fetchAddr core processId nextFetchAddr) =
      some (t, miss))
    (hdeliver : s.deliver cfg k core tid processId nextFetchAddr space uops = some (u, us))
    (hus : us ≠ []) : u = t ∧ miss = CACHE_HIT := by
  unfold Mem.deliver at hdeliver
  rw [h, Option.map_some] at hdeliver
  cases miss with
  | false =>
      obtain ⟨rfl, -⟩ := Prod.mk.inj (Option.some.inj hdeliver)
      exact ⟨rfl, rfl⟩
  | true =>
      obtain ⟨-, rfl⟩ := Prod.mk.inj (Option.some.inj hdeliver)
      exact absurd rfl hus

/-- An access of a cache that is not perfect is right exactly if the line is present or the
memory system accepts the request for it. -/
theorem icache_hits_real_iff (cfg : MemConfig) (k : IcacheKnobs) (s t : Mem) (core tid : ℕ)
    (addr : Addr) (miss : Bool) (hperfect : k.perfectIcache = false) (haddr : addr ≠ 0)
    (h : s.accessIcache cfg k core tid addr = some (t, miss)) :
    IcacheLaw cfg k s core tid addr t miss ↔
      IcacheHolds s core addr ∨
        Accepts cfg s core (icacheLine s core addr) k.icacheLineSize := by
  obtain ⟨hholds, rfl, hkept⟩ | ⟨habsent, hrefused, rfl, hfrontend⟩ |
    ⟨habsent, haccept, rfl, hready, r, hunder⟩ := accessIcache_spec cfg s hperfect haddr h
  · refine iff_of_true ?_ (.inl hholds)
    refine ⟨fun _ => hkept, ?_, fun hm => Bool.noConfusion hm, fun hm => Bool.noConfusion hm⟩
    rintro α processId nextFetchAddr space uops us u rfl hdeliver hus
    rw [(deliver_hit h hdeliver hus).1]
    exact hkept
  · refine iff_of_false (fun hlaw => habsent ?_) (not_or.mpr ⟨habsent, hrefused⟩)
    have hkept : IcacheHolds t core addr := hlaw.hit rfl
    rwa [IcacheHolds, hfrontend] at hkept
  · refine iff_of_true ?_ (.inr haccept)
    refine ⟨fun hm => Bool.noConfusion hm, ?_, fun _ => hready, fun _ =>
      ⟨r, hunder, wakes cfg core tid _ r⟩⟩
    rintro α processId nextFetchAddr space uops us u rfl hdeliver hus
    exact Bool.noConfusion (deliver_hit h hdeliver hus).2

/-- The front end of the smallest machine. -/
def smallIcache : IcacheKnobs :=
  { perfectIcache := false, icacheLineSize := 64, ptxSim := false, width := 1 }

/-- The smallest machine after a fetch of its first thread. -/
def oneFetch : Option Mem :=
  (Mem.accessIcache (Mem.smallConfig .llcDecoupledNetwork 1) smallIcache
    (Mem.small .llcDecoupledNetwork 1 []) 0 0 64).map Prod.fst

/-- The smallest machine when the line of the fetch has come. -/
def filledFetch : Option Mem :=
  oneFetch.bind fun s => s.icacheFillLine (Mem.smallConfig .llcDecoupledNetwork 1) (.mshr 0 1)

/-- A second thread fetches from a line that is on its way, which is a miss, and from the same line
when it has come, which is a hit. -/
theorem icache_hits_real_iff_same_line :
    (∃ s t, oneFetch = some s ∧
      s.accessIcache (Mem.smallConfig .llcDecoupledNetwork 1) smallIcache 0 1 64 =
        some (t, CACHE_MISS) ∧
      IcacheLaw (Mem.smallConfig .llcDecoupledNetwork 1) smallIcache s 0 1 64 t CACHE_MISS) ∧
    ∃ s t, filledFetch = some s ∧
      s.accessIcache (Mem.smallConfig .llcDecoupledNetwork 1) smallIcache 0 1 64 =
        some (t, CACHE_HIT) ∧
      IcacheLaw (Mem.smallConfig .llcDecoupledNetwork 1) smallIcache s 0 1 64 t CACHE_HIT := by
  have hmerged : (oneFetch.bind fun s =>
      (s.accessIcache (Mem.smallConfig .llcDecoupledNetwork 1) smallIcache 0 1 64).map fun p =>
        ((s.mshrFreeList 0).isEmpty, p.2)) = some (false, CACHE_MISS) := by decide +kernel
  have hfilled : (filledFetch.bind fun s =>
      (s.accessIcache (Mem.smallConfig .llcDecoupledNetwork 1) smallIcache 0 1 64).map fun p =>
        (((s.frontend 0).icache.lookup 64).isSome, p.2)) = some (true, CACHE_HIT) := by
    decide +kernel
  obtain ⟨s, hs, hseen⟩ := Option.bind_eq_some_iff.mp hmerged
  obtain ⟨⟨t, miss⟩, ht, hpair⟩ := Option.map_eq_some_iff.mp hseen
  obtain ⟨hfree, rfl⟩ := Prod.mk.inj hpair
  obtain ⟨s', hs', hseen'⟩ := Option.bind_eq_some_iff.mp hfilled
  obtain ⟨⟨t', miss'⟩, ht', hpair'⟩ := Option.map_eq_some_iff.mp hseen'
  obtain ⟨hholds, rfl⟩ := Prod.mk.inj hpair'
  refine ⟨⟨s, t, hs, ht, ?_⟩, s', t', hs', ht', ?_⟩
  · refine (icache_hits_real_iff _ _ _ _ _ _ _ _ rfl (by decide) ht).mpr (.inr (.inr (.inl ?_)))
    rintro hnil
    rw [hnil] at hfree
    cases hfree
  · exact (icache_hits_real_iff _ _ _ _ _ _ _ _ rfl (by decide) ht').mpr (.inl hholds)

/-- The smallest machine after the fetches of two threads, which fill its MSHR. -/
def twoFetches : Option Mem :=
  oneFetch.bind fun s =>
    (s.accessIcache (Mem.smallConfig .llcDecoupledNetwork 1) smallIcache 0 1 128).map Prod.fst

/-- With the MSHR full, a third fetch "hits" a line that is not there, and its uop is
delivered. -/
theorem missed_line_delivered : ∃ s t, twoFetches = some s ∧
    s.accessIcache (Mem.smallConfig .llcDecoupledNetwork 1) smallIcache 0 2 192 =
      some (t, CACHE_HIT) ∧
    (t.frontend 0).icache.lookup 192 = none ∧ (t.frontend 0).fetchReadyAddr 2 = none ∧
    ∃ u, s.deliver (Mem.smallConfig .llcDecoupledNetwork 1) smallIcache 0 2 0 192 4 [7, 8] =
      some (u, [7]) :=
  ⟨_, _, rfl, rfl, rfl, rfl, _, rfl⟩

end MacSim.Analysis.Icache
