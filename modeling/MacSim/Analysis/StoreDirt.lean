import MacSim.Analysis.WritebackLoss

/-!
# Stores that miss

A store that misses in its L1 cache travels as a request.  The request itself never carries
the dirty flag: `init_new_req` and `adjust_req` clear it, and the line is made dirty only by
a hit of the request in the input queue of some level.  So a store whose request found no
cached copy below, or that was merged into a load, completes with a clean line, and its data
is never written back.

The log notes for every completed store of a CPU core whether its line was dirty on the way
to memory.  In the runs in which a level that is about to complete a store has its line dirty
further down, or will make it dirty by the hit that completes it, all of them are.
-/

set_option autoImplicit false

namespace MacSim.Analysis

open MacSim.Model MacSim.Computation

variable {cfg : MemConfig} {sc : Scope} {s t : Mem} {r x : ReqId} {d : DcuId}
  {C : DcuId → Prop}

/-- A store of a CPU core. -/
def IsStore (req : MemReq) : Prop := req.type = .dstore ∧ req.acc = false

/-- Every completed store had its line dirty. -/
def AllDirty (log : List Event) : Prop := ∀ r b, Event.storeDone r b ∈ log → b = true

/-- A request and everything merged into it, directly or through others. -/
def Under (s : Mem) (r x : ReqId) : Prop :=
  Relation.ReflTransGen (fun p c => c ∈ (s.req p).merge) r x

/-- The line of a request is dirty in an enabled cache on its path that is not one of
those given. -/
def DirtyOutside (cfg : MemConfig) (C : DcuId → Prop) (s : Mem) (x : ReqId) : Prop :=
  ∃ l ∈ [Level.l1, .l2, .l3, .llc], ¬ C ⟨l, (s.req x).cacheId l⟩ ∧
    (cfg.flags ⟨l, (s.req x).cacheId l⟩).disable = false ∧
    s.lineDirty ⟨l, (s.req x).cacheId l⟩ (s.req x).addr = true

/-- All stores under a request have their line dirty outside the caches given. -/
def Safe (cfg : MemConfig) (C : DcuId → Prop) (s : Mem) (r : ReqId) : Prop :=
  ∀ x, Under s r x → IsStore (s.req x) → DirtyOutside cfg C s x

/-! ## What stays -/

/-- Requests keep their goals, and the caches outside those given their dirty lines. -/
structure After (C : DcuId → Prop) (s t : Mem) : Prop where
  calm : Calm s t
  dirty : ∀ d, ¬ C d → ∀ a, s.lineDirty d a = true → t.lineDirty d a = true
  param : ∀ d, ∀ c' ∈ (t.dcu d).cache, ∃ c ∈ (s.dcu d).cache, c'.param = c.param

/-- Nothing done changes nothing. -/
theorem After.refl (C : DcuId → Prop) (s : Mem) : After C s s :=
  ⟨Calm.of_eq rfl, fun _ _ _ h => h, fun _ c hc => ⟨c, hc, rfl⟩⟩

/-- Two changes in a row are one. -/
theorem After.trans {u : Mem} (h : After C s t) (h' : After C t u) : After C s u := by
  refine ⟨h.calm.trans h'.calm, fun d hd a ha => h'.dirty d hd a (h.dirty d hd a ha), ?_⟩
  intro d c'' hc''
  obtain ⟨c', hc', hparam'⟩ := h'.param d c'' hc''
  obtain ⟨c, hc, hparam⟩ := h.param d c' hc'
  exact ⟨c, hc, hparam'.trans hparam⟩

/-- More caches may change where fewer do. -/
theorem After.mono {C' : DcuId → Prop} (h : After C s t) (hC : ∀ d, C d → C' d) :
    After C' s t :=
  ⟨h.calm, fun d hd => h.dirty d fun hc => hd (hC d hc), h.param⟩

/-- A store in flight is the store it was. -/
theorem Calm.store (h : Calm s t) (hx : IsStore (t.req x)) :
    IsStore (s.req x) ∧ SameGoal (t.req x) (s.req x) := by
  rcases h.goal x with hgoal | ⟨-, htype⟩
  · refine ⟨⟨?_, ?_⟩, hgoal⟩
    · rw [← hgoal.type]
      exact hx.1
    · rw [← hgoal.acc]
      exact hx.2
  · exact absurd hx.1 htype

/-- What is merged below a request after a calm change was below it before. -/
theorem Calm.under (h : Calm s t) (hx : Under t r x) : Under s r x :=
  Relation.ReflTransGen.mono (fun p _ hc => h.merge p hc) _ _ hx

/-- A line that is dirty outside the caches that change stays dirty there. -/
theorem DirtyOutside.after (h : DirtyOutside cfg C s x) (ha : After C s t)
    (hgoal : SameGoal (t.req x) (s.req x)) : DirtyOutside cfg C t x := by
  obtain ⟨l, hl, hC, hen, hdirty⟩ := h
  refine ⟨l, hl, ?_⟩
  rw [hgoal.cacheId, hgoal.addr]
  exact ⟨hC, hen, ha.dirty _ hC _ hdirty⟩

/-- Stores that are safe stay safe. -/
theorem Safe.after (h : Safe cfg C s r) (ha : After C s t) : Safe cfg C t r := by
  intro x hx hstore
  obtain ⟨hstore', hgoal⟩ := ha.calm.store hstore
  exact (h x (ha.calm.under hx) hstore').after ha hgoal

/-- What is merged below a safe request is safe. -/
theorem Safe.under (h : Safe cfg C s r) (hx : Under s r x) : Safe cfg C s x :=
  fun y hy => h y (hx.trans hy)

/-- A line that is dirty outside some caches is dirty on its path. -/
theorem DirtyOutside.dirtyOnPath (h : DirtyOutside cfg C s x) : s.dirtyOnPath cfg x = true := by
  obtain ⟨l, hl, -, hen, hdirty⟩ := h
  rw [Mem.dirtyOnPath, List.any_eq_true]
  exact ⟨l, hl, by simp [hen, hdirty]⟩

/-- A move that issues nothing changes the caches of its scope only. -/
theorem MemMove.after {s' : Mem} (hissue : ¬ sc.issues) (hm : MemMove cfg sc s s') :
    After sc.cache s s' :=
  ⟨hm.calm hissue, fun _ hd a h => hm.lineDirty hd a h, hm.param⟩

/-- Moves that issue nothing change the caches of their scope only. -/
theorem MemMoves.after (hissue : ¬ sc.issues) (hm : MemMoves cfg sc s t) : After sc.cache s t := by
  induction hm with
  | refl => exact After.refl _ s
  | tail _ hm ih => exact ih.trans (hm.after hissue)

/-! ## Completions of safe requests -/

/-- The completed stores in the log after a move. -/
theorem MemMove.storeDone {s' : Mem} (hm : MemMove cfg sc s s') {b : Bool}
    (h : Event.storeDone r b ∈ s'.log) : Event.storeDone r b ∈ s.log ∨
      (sc.completes r ∧ b = s.dirtyOnPath cfg r ∧ IsStore (s.req r)) := by
  cases hm with
  | aside ha =>
      rw [ha.log] at h
      exact .inl h
  | note e he =>
      rcases List.mem_cons.mp h with rfl | h
      · exact .inr ⟨he.1, he.2.1, he.2.2⟩
      · exact .inl h
  | push q p _ _ hok =>
      unfold Mem.push at hok h
      split at hok
      · cases hok
      · rename_i hfull
        rw [if_neg hfull] at h
        exact .inl h
  | finish p _ _ =>
      unfold Mem.markDone at h
      dsimp only at h
      split at h
      · rcases List.mem_cons.mp h with heq | h
        · cases heq
        · exact .inl h
      · exact .inl h
  | release core p _ _ =>
      rcases List.mem_cons.mp h with heq | h
      · cases heq
      · exact .inl h
  | delete p _ _ _ =>
      rcases List.mem_cons.mp h with heq | h
      · cases heq
      · exact .inl h
  | recycle n _ =>
      rcases List.mem_cons.mp h with heq | h
      · cases heq
      · exact .inl h
  | allocate core ha =>
      obtain ⟨p, -, heq⟩ := Option.map_eq_some_iff.mp ha
      obtain ⟨rfl, rfl⟩ := Prod.mk.inj heq
      exact .inl h
  | start p a _ _ _ _ hi =>
      unfold Mem.initNewReq at hi
      split at hi
      · cases hi
        exact .inl h
      · cases hi
  | startPool a _ _ hi =>
      unfold Mem.initNewReq at hi
      split at hi
      · cases hi
        unfold Mem.acquireEntry at h
        split at h <;> exact .inl h
      · cases hi
  | _ => exact .inl h

/-- A scope that completes nothing adds no completed store. -/
theorem MemMoves.allDirty_of_none (hm : MemMoves cfg sc s t) (hnone : ∀ r, ¬ sc.completes r)
    (h : AllDirty s.log) : AllDirty t.log := by
  induction hm with
  | refl => exact h
  | tail _ hm ih =>
      intro r b hmem
      rcases hm.storeDone hmem with hold | ⟨hr, -⟩
      · exact ih r b hold
      · exact absurd hr (hnone r)

/-- A scope that completes only safe requests adds only completed stores whose line was
dirty. -/
theorem MemMoves.allDirty (hm : MemMoves cfg sc s t) (hissue : ¬ sc.issues)
    (hsafe : ∀ r, sc.completes r → Safe cfg sc.cache s r) (h : AllDirty s.log) :
    AllDirty t.log := by
  induction hm with
  | refl => exact h
  | tail hsu hm ih =>
      intro r b hmem
      rcases hm.storeDone hmem with hold | ⟨hr, rfl, hstore⟩
      · exact ih r b hold
      · have hsafe' := (hsafe r hr).after (MemMoves.after hissue hsu)
        exact (hsafe' r .refl hstore).dirtyOnPath

/-- What is dirty outside some caches is dirty outside fewer. -/
theorem DirtyOutside.mono {C' : DcuId → Prop} (h : DirtyOutside cfg C s x)
    (hC : ∀ d, C' d → C d) : DirtyOutside cfg C' s x := by
  obtain ⟨l, hl, hnot, hrest⟩ := h
  exact ⟨l, hl, fun h => hnot (hC _ h), hrest⟩

/-- What is safe from some caches is safe from fewer. -/
theorem Safe.mono {C' : DcuId → Prop} (h : Safe cfg C s r) (hC : ∀ d, C' d → C d) :
    Safe cfg C' s r :=
  fun x hx hstore => (h x hx hstore).mono hC

/-- A request without merged requests that is no store is safe. -/
theorem Safe.of_alone (hmerge : (s.req r).merge = []) (hstore : ¬ IsStore (s.req r)) :
    Safe cfg C s r := by
  intro x hx hx'
  rcases Relation.ReflTransGen.cases_head hx with rfl | ⟨y, hy, -⟩
  · exact absurd hx' hstore
  · rw [hmerge] at hy
    cases hy

/-- A write-back has no stores below it. -/
theorem Safe.of_wb (hk : Kinds cfg (books s)) (hr : Created (books s) r)
    (ht : (s.req r).type = .wb) : Safe cfg C s r := by
  apply Safe.of_alone
  · obtain ⟨n, -, rfl⟩ := hk.wb_of_type hr ht
    by_contra hne
    obtain ⟨c, hc⟩ := List.exists_mem_of_ne_nil _ hne
    exact (hk.lists (.merged (.wb n)) c hc).1
  · rintro ⟨h, -⟩
    rw [ht] at h
    cases h

/-! ## The phases of a cycle -/

/-- Requests are handed on and nothing completes. -/
def handing (queue : QueueId → Prop) : Scope where
  cache _ := False
  queue := queue
  completes _ := False
  issues := False
  waits := False
  strict := False

/-- The L1 caches and the cache of a level. -/
def near (d e : DcuId) : Prop := e.level = .l1 ∨ e = d

/-- A level serves its fill queue and completes some requests. -/
def filling (cfg : MemConfig) (d : DcuId) (completes : ReqId → Prop) : Scope where
  cache := near d
  queue q := q ≠ ⟨d, .inQueue⟩
  completes := completes
  issues := False
  waits := (cfg.flags d).done = true
  strict := False

/-- A level serves its input queue and completes some requests. -/
def entering (completes : ReqId → Prop) : Scope where
  cache e := e.level = .l1
  queue _ := True
  completes := completes
  issues := False
  waits := False
  strict := False

/-- The scope of a fill may work at its cache unit. -/
theorem filling_working (completes : ReqId → Prop) : Working (filling cfg d completes) d := by
  refine ⟨by simp [filling], by simp [filling], fun q hq heq => ?_⟩
  rw [heq] at hq
  exact hq rfl

/-- The scope of the input queue may work at its cache unit. -/
theorem entering_working (completes : ReqId → Prop) : Working (entering completes) d :=
  ⟨trivial, trivial, fun _ _ => trivial⟩

/-- The scope of the input queue may complete whatever is merged into what it completes. -/
theorem entering_completing {completes : ReqId → Prop}
    (hmerged : ∀ r, completes r → ∀ c ∈ (s.req r).merge, completes c) :
    Completing (entering completes) s :=
  ⟨id, fun _ h => h, fun _ _ => trivial, hmerged⟩

/-- The requests whose fill may complete them. -/
def MayFill (cfg : MemConfig) (d : DcuId) (s : Mem) (r : ReqId) : Prop :=
  (cfg.flags d).done = true ∨ (s.req r).state = .fillWaitDone ∨ (s.req r).done = true

/-- The fill queue, when the stores it may complete are safe. -/
theorem processFillQueue_stores (hf : Fine cfg False s) (h : AllDirty s.log)
    (hsafe : ∀ r ∈ s.entries ⟨d, .fillQueue⟩, MayFill cfg d s r → Safe cfg (near d) s r) :
    Ensures (Mem.processFillQueue cfg d s) fun t => Fine cfg False t ∧ After (near d) s t ∧
      AllDirty t.log ∧ t.entries ⟨d, .inQueue⟩ ⊆ s.entries ⟨d, .inQueue⟩ ∧
      ∀ r, (t.req r).done = true → (s.req r).done = true ∨ Safe cfg (near d) t r := by
  set K : ReqId → Prop := fun x => Safe cfg (near d) s x with hK
  have hmoves : Ensures (Mem.processFillQueue cfg d s) fun t =>
      MemMoves cfg (filling cfg d K) s t := by
    apply processFillQueue_moves hf _ (filling_working K)
    · exact .inr rfl
    · exact id
    · rintro r hr (hdone | hstate | hwb | hdone)
      · exact hsafe r hr (.inl hdone)
      · exact hsafe r hr (.inr (.inl hstate))
      · exact Safe.of_wb hf.kinds (hf.kinds.lists (.queue ⟨d, .fillQueue⟩) r hr) hwb
      · exact hsafe r hr (.inr (.inr hdone))
    · exact fun hs => hs.elim
    · refine ⟨id, fun e he => .inl he, fun e he heq => ?_, fun r hr c hc => ?_⟩
      · cases heq
      · exact Safe.under hr (.single hc)
  have hqueue : ¬ (filling cfg d K).queue ⟨d, .inQueue⟩ := fun hne => hne rfl
  intro t ht
  have hm := hmoves t ht
  have hafter : After (near d) s t := hm.after id
  refine ⟨hm.fine hf, hafter, hm.allDirty id (fun r hr => hr) h, hm.entries hqueue, ?_⟩
  intro r hr
  rcases hm.done r hr with hold | hnew
  · exact .inl hold
  · exact .inr (Safe.after hnew hafter)

/-- A hit of a request in the input queue of a level makes the line of a store under it
dirty on the path of that store. -/
def HitMarks (s : Mem) (d : DcuId) (r x : ReqId) : Prop :=
  (s.req r).type = .dstore ∧ d.level ∈ [Level.l2, .l3, .llc] ∧
    (s.req x).cacheId d.level = d.id ∧ ∀ c ∈ (s.dcu d).cache,
      c.param.findTagAndSet (s.req x).addr = c.param.findTagAndSet (s.req r).addr

/-- Two addresses of one line are dirty together. -/
theorem lineDirty_congr {a b : Addr}
    (h : ∀ c ∈ (s.dcu d).cache, c.param.findTagAndSet a = c.param.findTagAndSet b)
    (hb : s.lineDirty d b = true) : s.lineDirty d a = true := by
  unfold Mem.lineDirty at hb ⊢
  cases hc : (s.dcu d).cache with
  | none => simp [hc] at hb
  | some c =>
      have hlookup : c.lookup a = c.lookup b := by
        unfold Cache.lookup
        rw [h c hc]
      simpa [hc, hlookup] using hb

/-- After the hit, a request is safe if all stores under it were dirty before or are marked
by the hit. -/
theorem markHit_safe {c c' : Cache DcacheData} {now : Counter} {upd : Bool} {l : Slot}
    (ha : After (fun e => e.level = .l1) s t) (hen : (cfg.flags d).disable = false)
    (hready : ∀ x, Under s r x → IsStore (s.req x) →
      DirtyOutside cfg (fun e => e.level = .l1) s x ∨ HitMarks s d r x)
    (hc : c ∈ (t.dcu d).cache) (hacc : c.accessCache now (t.req r).addr upd = (some l, c')) :
    Safe cfg (fun e => e.level = .l1) (Mem.markHit d r c' l t) r := by
  have hm := markHit_moves cfg (entering fun _ => False) hc hacc
  have hau : After (fun e => e.level = .l1) t (Mem.markHit d r c' l t) := hm.1.after id
  have hall := ha.trans hau
  intro x hx hstore
  obtain ⟨hstore', hgoal⟩ := hall.calm.store hstore
  rcases hready x (hall.calm.under hx) hstore' with hdirty | ⟨htype, hlevel, hid, htag⟩
  · exact hdirty.after hall hgoal
  · rcases hall.calm.goal r with hgoal' | ⟨hmerge, hne⟩
    · refine ⟨d.level, by simp only [List.mem_cons] at hlevel ⊢; exact .inr hlevel, ?_⟩
      have hd : (⟨d.level, ((Mem.markHit d r c' l t).req x).cacheId d.level⟩ : DcuId) = d := by
        rw [hgoal.cacheId, hid]
      rw [hd]
      refine ⟨?_, hen, ?_⟩
      · intro hl1
        rw [hl1] at hlevel
        simp at hlevel
      · apply lineDirty_congr (b := (t.req r).addr)
        · intro k hk
          obtain ⟨k', hk', hparam⟩ := hall.param d k hk
          rw [hparam, hgoal.addr, show (t.req r).addr = (s.req r).addr from hgoal'.addr]
          exact htag k' hk'
        · apply hm.2
          exact .inl (hgoal'.type.trans htype)
    · exact absurd hstore (fun hs => by
        rcases Relation.ReflTransGen.cases_head hx with rfl | ⟨y, hy, -⟩
        · exact hne hs.1
        · rw [hmerge] at hy
          cases hy)

/-- What the loop over the input queue keeps. -/
structure Entering (cfg : MemConfig) (Q : List ReqId) (s t : Mem) : Prop where
  fine : Fine cfg False t
  grows : Grows s t
  after : After (fun e => e.level = .l1) s t
  dirty : AllDirty t.log
  done : ∀ r ∈ Q, (t.req r).done = true → Safe cfg (fun e => e.level = .l1) t r

/-- Moves that complete safe requests only keep what the loop over the input queue keeps. -/
theorem Entering.step {Q : List ReqId} {u : Mem} {K : ReqId → Prop} (h : Entering cfg Q s t)
    (hm : MemMoves cfg (entering K) t u)
    (hK : ∀ x, K x → Safe cfg (fun e => e.level = .l1) t x) : Entering cfg Q s u := by
  have hafter : After (fun e => e.level = .l1) t u := hm.after id
  refine ⟨hm.fine h.fine, h.grows.trans hm.grows, h.after.trans hafter,
    hm.allDirty id hK h.dirty, fun r hr hdone => ?_⟩
  rcases hm.done r hdone with hold | hnew
  · exact (h.done r hr hold).after hafter
  · exact (hK r hnew).after hafter

/-- The input queue, when the stores it may complete are dirty below or marked by the hit. -/
theorem processInQueue_stores (hf : Fine cfg False s) (h : AllDirty s.log)
    (hdone : ∀ r ∈ s.entries ⟨d, .inQueue⟩, (s.req r).done = true →
      Safe cfg (fun e => e.level = .l1) s r)
    (hready : (cfg.flags d).done = true → ∀ r ∈ s.entries ⟨d, .inQueue⟩, ∀ x, Under s r x →
      IsStore (s.req x) → DirtyOutside cfg (fun e => e.level = .l1) s x ∨ HitMarks s d r x) :
    Ensures (Mem.processInQueue cfg d s) fun t => Fine cfg False t ∧ AllDirty t.log := by
  set Q := s.entries ⟨d, .inQueue⟩ with hQ
  have hcr (r : ReqId) (hr : r ∈ Q) : Created (books s) r :=
    hf.kinds.lists (.queue ⟨d, .inQueue⟩) r hr
  have hnone (u : Mem) : ∀ x, False → Safe cfg (fun e => e.level = .l1) u x :=
    fun _ hx => hx.elim
  have hloop : Ensures (Mem.processInQueue cfg d s) fun t => Entering cfg Q s t := by
    unfold Mem.processInQueue
    refine serve_ensures ⟨hf, Grows.refl s, After.refl _ s, h, hdone⟩ ?_ ?_
    · intro r hr t ht
      have hcrt := ht.grows.created (hcr r hr)
      apply inBody_cases
      · exact ht
      · intro p hp
        have hm : MemMoves cfg (entering fun _ => False) t p.1 :=
          inMiss_moves ht.fine (entering_working _) hcrt p hp
        exact ht.step hm (hnone t)
      · intro hen c hc now upd l c' hacc p hp
        have hmark := markHit_moves cfg (entering fun _ => False) hc hacc
        have hu := ht.step hmark.1 (hnone t)
        have hcru := hmark.1.grows.created hcrt
        by_cases hcomp : (cfg.flags d).done = true ∨
            ((Mem.markHit d r c' l t).req r).type = .wb
        · have hsafe : Safe cfg (fun e => e.level = .l1) (Mem.markHit d r c' l t) r := by
            rcases hcomp with hd | hwb
            · exact markHit_safe ht.after hen (hready hd r hr) hc hacc
            · exact Safe.of_wb hu.fine.kinds hcru hwb
          set K : ReqId → Prop := fun x => Safe cfg (fun e => e.level = .l1)
            (Mem.markHit d r c' l t) x with hK
          have hsc : Completing (entering K) (Mem.markHit d r c' l t) :=
            entering_completing fun x hx c hc => Safe.under hx (.single hc)
          have hm : MemMoves cfg (entering K) (Mem.markHit d r c' l t) p.1 :=
            inHit_moves hu.fine hsc (entering_working K) (fun _ => hsafe) hcru hen
              (fun ht => hmark.2 (.inr ht)) p hp
          exact hu.step hm fun x hx => hx
        · have hm : MemMoves cfg (entering fun _ => False) (Mem.markHit d r c' l t) p.1 :=
            inHit_moves hu.fine (entering_completing fun _ hx => hx.elim) (entering_working _)
              hcomp hcru hen (fun ht => hmark.2 (.inr ht)) p hp
          exact hu.step hm (hnone _)
    · intro r hr t ht u hu
      have hcrt := ht.grows.created (hcr r hr)
      set K : ReqId → Prop := fun x => Safe cfg (fun e => e.level = .l1) t x with hK
      have hsc : Completing (entering K) t :=
        entering_completing fun x hx c hc => Safe.under hx (.single hc)
      have hm : MemMoves cfg (entering K) t u :=
        retireServed_moves ht.fine hsc (ht.done r hr) hcrt u hu
      exact ht.step hm fun x hx => hx
  exact hloop.mono fun t ht => ⟨ht.fine, ht.dirty⟩

/-! ## Cycles and runs -/

/-- The stores that a level may complete in its next cycle have their line dirty further
down, or are marked by the hit that completes them. -/
def StoresReady (cfg : MemConfig) (s : Mem) (d : DcuId) : Prop :=
  ∀ r x, Under s r x → IsStore (s.req x) →
    (r ∈ s.entries ⟨d, .fillQueue⟩ → MayFill cfg d s r → DirtyOutside cfg (near d) s x) ∧
    (r ∈ s.entries ⟨d, .inQueue⟩ ∨ r ∈ (s.dcu d).retryQueue →
      ((s.req r).done = true → DirtyOutside cfg (near d) s x) ∧
      ((cfg.flags d).done = true → DirtyOutside cfg (near d) s x ∨ HitMarks s d r x))

/-- The condition on a step: the level that is clocked is ready. -/
def ClocksReady (cfg : MemConfig) (s : Mem) : Action → Prop
  | .cycle d false _ => StoresReady cfg s d
  | _ => True

/-- A queue holds what it held, and maybe the request that is added. -/
theorem entries_push {q q' : QueueId} :
    ∀ y ∈ (s.push cfg q r).1.entries q', y ∈ s.entries q' ∨ y = r := by
  intro y hy
  unfold Mem.push at hy
  split at hy
  · exact .inl hy
  · dsimp only at hy
    rw [entries_setEntries] at hy
    split at hy
    · rename_i heq
      rw [heq]
      have hperm := (List.perm_insertionSort _ _).mem_iff.mp hy
      rcases List.mem_append.mp hperm with hy | hy
      · exact .inl hy
      · exact .inr (List.mem_singleton.mp hy)
    · exact .inl hy

/-- The retry loop only moves requests of the retry queue. -/
theorem entries_retryLoop (xs kept : List ReqId) {q : QueueId} :
    ∀ y ∈ (Mem.retryLoop cfg d xs s kept).entries q, y ∈ s.entries q ∨ y ∈ xs := by
  induction xs generalizing s kept with
  | nil =>
      intro y hy
      refine .inl ?_
      unfold Mem.retryLoop at hy
      rw [entries_modDcu] at hy
      · exact hy
      · rfl
  | cons r xs ih =>
      intro y hy
      unfold Mem.retryLoop at hy
      dsimp only at hy
      split at hy
      · rcases ih kept y hy with hy | hy
        · rcases entries_push y hy with hy | rfl
          · exact .inl hy
          · exact .inr List.mem_cons_self
        · exact .inr (List.mem_cons_of_mem r hy)
      · rcases ih _ y hy with hy | hy
        · exact .inl hy
        · exact .inr (List.mem_cons_of_mem r hy)

/-- The start of a cycle, up to the fill queue: nothing completes, the fill queue does not
grow and the input queue takes requests of the retry queue only. -/
theorem beforeFill_stores (hf : Fine cfg False s) :
    Ensures (Mem.processWbQueue cfg d (Mem.retryLoop cfg d (s.dcu d).retryQueue s []))
      fun t => (∃ Q, MemMoves cfg (handing Q) s t) ∧
        t.entries ⟨d, .fillQueue⟩ ⊆ s.entries ⟨d, .fillQueue⟩ ∧
        ∀ r ∈ t.entries ⟨d, .inQueue⟩, r ∈ s.entries ⟨d, .inQueue⟩ ∨ r ∈ (s.dcu d).retryQueue := by
  set u := Mem.retryLoop cfg d (s.dcu d).retryQueue s [] with hu
  have hretry (Q : QueueId → Prop) (hQ : Q ⟨d, .inQueue⟩) : MemMoves cfg (handing Q) s u := by
    apply retryLoop_moves
    · exact hQ
    · exact fun r hr => hf.kinds.lists (.retry d) r hr
    · exact fun r hr => nomatch hr
  have hfu : Fine cfg False u := (hretry (fun _ => True) trivial).fine hf
  have hwork : Working (handing fun q => q ≠ ⟨d, .fillQueue⟩ ∧ q ≠ ⟨d, .inQueue⟩) d := by
    refine ⟨by simp [handing], by simp [handing], fun q hq => ⟨?_, ?_⟩⟩
    · rintro rfl
      exact hq rfl
    · rintro rfl
      exact hq rfl
  intro t ht
  have hwb : MemMoves cfg (handing fun q => q ≠ ⟨d, .fillQueue⟩ ∧ q ≠ ⟨d, .inQueue⟩) u t :=
    processWbQueue_moves hfu hwork t ht
  have hwide : MemMoves cfg (handing fun _ => True) u t :=
    processWbQueue_moves hfu ⟨trivial, trivial, fun _ _ => trivial⟩ t ht
  refine ⟨⟨fun _ => True, (hretry _ trivial).trans hwide⟩, ?_, ?_⟩
  · have hin : MemMoves cfg (handing fun q => q ≠ ⟨d, .fillQueue⟩) s u :=
      hretry _ (by simp)
    exact List.Subset.trans (hwb.entries fun h => h.1 rfl) (hin.entries fun h => h rfl)
  · intro r hr
    exact entries_retryLoop _ _ r (hwb.entries (fun h => h.2 rfl) hr)

/-- A cycle of a level that is ready. -/
theorem runACycle_stores (hf : Fine cfg False s) (h : AllDirty s.log)
    (hready : StoresReady cfg s d) (accept : ReqId → Bool) :
    Ensures (Mem.runACycle cfg accept false d s) fun t => AllDirty t.log := by
  have hnone {Q : QueueId → Prop} (r : ReqId) : ¬ (handing Q).completes r := id
  unfold Mem.runACycle
  rw [if_neg (by simp)]
  refine Ensures.bind (beforeFill_stores hf) ?_
  rintro t1 ⟨⟨Q, h1⟩, hfill, hin⟩
  have hf1 : Fine cfg False t1 := h1.fine hf
  have ha1 : After (near d) s t1 := After.mono (h1.after id) fun _ hc => hc.elim
  -- the fill queue: what it may complete was dirty below before the cycle
  have hsafe (r : ReqId) (hr : r ∈ t1.entries ⟨d, .fillQueue⟩) (hmay : MayFill cfg d t1 r) :
      Safe cfg (near d) t1 r := by
    have hmay' : MayFill cfg d s r := by
      rcases hmay with hdone | hstate | hdone
      · exact .inl hdone
      · exact .inr (.inl (h1.state id r hstate))
      · exact .inr (.inr ((h1.done r hdone).resolve_right (hnone r)))
    have hs : Safe cfg (near d) s r := fun x hx hstore =>
      (hready r x hx hstore).1 (hfill hr) hmay'
    exact hs.after ha1
  refine Ensures.bind (processFillQueue_stores hf1 (h1.allDirty_of_none hnone h) hsafe) ?_
  rintro t2 ⟨hf2, ha2, hdirty2, hin2, hdone2⟩
  have hout : Ensures (Mem.processOutQueue cfg accept d t2) fun t3 =>
      MemMoves cfg (handing fun q => q ≠ ⟨d, .inQueue⟩) t2 t3 := processOutQueue_moves hf2 accept
  refine Ensures.bind hout fun t3 h3 => ?_
  have hf3 : Fine cfg False t3 := h3.fine hf2
  have ha3 : After (near d) t2 t3 := After.mono (h3.after id) fun _ hc => hc.elim
  have ha : After (near d) s t3 := (ha1.trans ha2).trans ha3
  have hmem (r : ReqId) (hr : r ∈ t3.entries ⟨d, .inQueue⟩) :
      r ∈ s.entries ⟨d, .inQueue⟩ ∨ r ∈ (s.dcu d).retryQueue :=
    hin r (hin2 (h3.entries (fun hne => hne rfl) hr))
  -- the input queue: its requests were there, or in the retry queue, before the cycle
  have hin3 : Ensures (Mem.processInQueue cfg d t3) fun t => Fine cfg False t ∧ AllDirty t.log := by
    apply processInQueue_stores hf3 (h3.allDirty_of_none hnone hdirty2)
    · intro r hr hdone
      have hdone' := (h3.done r hdone).resolve_right (hnone r)
      refine Safe.mono (C := near d) ?_ fun e he => .inl he
      rcases hdone2 r hdone' with hold | hsafe2
      · have hold' := (h1.done r hold).resolve_right (hnone r)
        have hs : Safe cfg (near d) s r := fun x hx hstore =>
          ((hready r x hx hstore).2 (hmem r hr)).1 hold'
        exact hs.after ha
      · exact hsafe2.after ha3
    · intro hd r hr x hx hstore
      obtain ⟨hstore', hgoal⟩ := ha.calm.store hstore
      rcases ((hready r x (ha.calm.under hx) hstore').2 (hmem r hr)).2 hd with hdirty | hhit
      · exact .inl ((hdirty.after ha hgoal).mono fun e he => .inl he)
      · obtain ⟨htype, hlevel, hid, htag⟩ := hhit
        rcases ha.calm.goal r with hgoal' | ⟨hmerge, hne⟩
        · refine .inr ⟨hgoal'.type.trans htype, hlevel, ?_, ?_⟩
          · rw [hgoal.cacheId]
            exact hid
          · intro c hc
            obtain ⟨c', hc', hparam⟩ := ha.param d c hc
            rw [hparam, hgoal.addr, hgoal'.addr]
            exact htag c' hc'
        · refine .inl (Safe.of_alone hmerge (fun hs => hne hs.1) x hx hstore)
  refine Ensures.map hin3 fun t4 h4 => ?_
  have hrecv : MemMoves cfg (handing fun _ => True) t4 (Mem.receivePacket cfg d t4) :=
    receivePacket_moves h4.1 trivial trivial
  exact (hrecv.trans tickDcu_moves).allDirty_of_none hnone h4.2

/-- In the runs in which every level that is clocked is ready, every store of a CPU core that
completes has its line dirty in an enabled cache on the way to memory at that moment. -/
theorem stores_kept (h : Mem.Reach cfg (ClocksReady cfg) s) : AllDirty s.log := by
  have hboth : Fine cfg False s ∧ AllDirty s.log := by
    induction h with
    | init h =>
        refine ⟨Initial.fine h, ?_⟩
        rw [h.log]
        exact fun r b hmem => nomatch hmem
    | @step s s' a _ hmeets hstep ih =>
        refine ⟨(step_fine ih.1 (fun hs => hs.elim) hstep).1, ?_⟩
        by_cases ha : ∃ d pll acc, a = .cycle d pll acc
        · obtain ⟨d, pll, acc, rfl⟩ := ha
          cases pll with
          | true =>
              cases hstep
              exact ih.2
          | false => exact runACycle_stores ih.1 ih.2 hmeets acc s' hstep
        · have hm : MemMoves cfg (outside False) s s' :=
            outside_moves ih.1 (fun d pll acc heq => ha ⟨d, pll, acc, heq⟩) hstep
          exact hm.allDirty_of_none (fun _ => id) ih.2
  exact hboth.2

/-! ## A kept and a forgotten store -/

instance (req : MemReq) : Decidable (IsStore req) :=
  inferInstanceAs (Decidable (_ ∧ _))

instance (d : DcuId) (s : Mem) (r : ReqId) : Decidable (MayFill cfg d s r) :=
  inferInstanceAs (Decidable (_ ∨ _ ∨ _))

/-- A simple case of a level that is ready: nothing is merged, no store is about to be
filled, and the stores in the input queue are at a level on their path. -/
def ReadyAlone (cfg : MemConfig) (s : Mem) : Action → Prop
  | .cycle d false _ =>
      (∀ r ∈ s.entries ⟨d, .fillQueue⟩, (s.req r).merge = [] ∧
        (IsStore (s.req r) → ¬ MayFill cfg d s r)) ∧
      ∀ r ∈ s.entries ⟨d, .inQueue⟩ ++ (s.dcu d).retryQueue, (s.req r).merge = [] ∧
        (IsStore (s.req r) → (s.req r).done = false ∧ d.level ∈ [Level.l2, .l3, .llc] ∧
          (s.req r).cacheId d.level = d.id)
  | _ => True

instance (s : Mem) (a : Action) : Decidable (ReadyAlone cfg s a) :=
  match a with
  | .cycle _ false _ => inferInstanceAs (Decidable (_ ∧ _))
  | .cycle _ true _ | .access _ | .request _ | .setUop _ _ | .tick | .coreTick _ | .simTick
  | .deliver _ | .dramReceive _ | .dramAdvance _ _ _ | .dramSend _ _ | .dramFree _
  | .invalidate _ _ => isTrue trivial

/-- A level that is ready alone is ready with the others. -/
theorem ReadyAlone.clocksReady {a : Action} (h : ReadyAlone cfg s a) : ClocksReady cfg s a := by
  unfold ReadyAlone at h
  split at h
  · rename_i d acc
    intro r x hx hstore
    -- nothing is merged into a request of the queues
    have hself (hmerge : (s.req r).merge = []) : x = r := by
      rcases Relation.ReflTransGen.cases_head hx with rfl | ⟨y, hy, -⟩
      · rfl
      · rw [hmerge] at hy
        cases hy
    constructor
    · intro hr hmay
      obtain ⟨hmerge, hno⟩ := h.1 r hr
      obtain rfl := hself hmerge
      exact absurd hmay (hno hstore)
    · intro hr
      obtain ⟨hmerge, hyes⟩ := h.2 r (List.mem_append.mpr hr)
      obtain rfl := hself hmerge
      obtain ⟨hdone, hlevel, hid⟩ := hyes hstore
      refine ⟨fun hd => ?_, fun _ => .inr ⟨hstore.1, hlevel, hid, fun _ _ => rfl⟩⟩
      rw [hdone] at hd
      cases hd
  · rename_i hne
    unfold ClocksReady
    split
    · exact absurd rfl (hne _ _)
    · trivial

/-- A load brings a line, the L1 cache loses it, and a store finds it in the L2 cache. -/
def storeHitsL2 : List Action :=
  [.access 0] ++ fetchLine ++ [.invalidate ⟨.l1, 0⟩ 64, .access 1, Mem.clock .l2 0]

/-- A store that hits in the L2 cache completes with a dirty line. -/
theorem storeHitsL2_kept : ∃ s, Mem.Reach (Mem.smallConfig .llcDecoupledNetwork 1)
    (ClocksReady (Mem.smallConfig .llcDecoupledNetwork 1)) s ∧
      Event.storeDone (.mshr 0 1) true ∈ s.log ∧ AllDirty s.log := by
  have hrun : (Mem.runIf (Mem.smallConfig .llcDecoupledNetwork 1)
      (ReadyAlone (Mem.smallConfig .llcDecoupledNetwork 1))
      (Mem.small .llcDecoupledNetwork 1 [Mem.memUop 0 .ld 64, Mem.memUop 0 .st 64])
      storeHitsL2).map (fun s => decide (Event.storeDone (.mshr 0 1) true ∈ s.log)) =
        some true := by
    decide +kernel
  obtain ⟨s, hs, hlog⟩ := Option.map_eq_some_iff.mp hrun
  have hreach := (Mem.reach_runIf (.init (Mem.small_initial _ _ _)) hs).mono
    fun _ _ hm => ReadyAlone.clocksReady hm
  exact ⟨s, hreach, of_decide_eq_true hlog, stores_kept hreach⟩

/-- A store that misses in every cache completes with a clean line. -/
theorem storeMisses_forgotten : ∃ s, Mem.Reachable (Mem.smallConfig .llcDecoupledNetwork 1) s ∧
    ¬ AllDirty s.log := by
  have hrun : (Mem.run (Mem.smallConfig .llcDecoupledNetwork 1)
      (Mem.small .llcDecoupledNetwork 1 [Mem.memUop 0 .st 64]) ([.access 0] ++ fetchLine)).map
        (fun s => decide (Event.storeDone (.mshr 0 1) false ∈ s.log)) = some true := by
    decide +kernel
  obtain ⟨s, hs, hlog⟩ := Option.map_eq_some_iff.mp hrun
  refine ⟨s, Mem.reach_runIf (.init (Mem.small_initial _ _ _)) hs, fun hall => ?_⟩
  have hmem := hall _ _ (of_decide_eq_true hlog)
  cases hmem

end MacSim.Analysis
