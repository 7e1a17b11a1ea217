import MacSim.Analysis.MemFine

/-!
# Every function is a sequence of moves

One lemma for each function of the memory system: from a state that is `Fine` it makes moves
of the given scope.  What a function needs of the scope stands in its hypotheses: the caches
it may change, the queues it may fill, the requests it may complete.
-/

set_option autoImplicit false

namespace MacSim.Analysis

open MacSim.Model MacSim.Computation

section

variable {cfg : MemConfig} {sc : Scope} {s t : Mem} {α : Type} {x : Option α} {π : α → Mem}

/-- One move is a sequence of moves. -/
theorem MemMove.single (h : MemMove cfg sc s t) : MemMoves cfg sc s t :=
  Relation.ReflTransGen.single h

/-- Moves before a program. -/
theorem MemMoves.andThen (h : MemMoves cfg sc s t)
    (hx : Ensures x fun a => MemMoves cfg sc t (π a)) :
    Ensures x fun a => MemMoves cfg sc s (π a) :=
  hx.mono fun _ ha => h.trans ha

end

variable {cfg : MemConfig} {sc : Scope} {s : Mem} {r : ReqId} {d : DcuId}

/-! ## Queues -/

/-- Putting a request into a queue of the scope is a move. -/
theorem push_moves {q : QueueId} (hq : sc.queue q) (hr : Created (books s) r) :
    MemMoves cfg sc s (s.push cfg q r).1 := by
  cases hok : (s.push cfg q r).2 with
  | false =>
      rw [push_refused cfg s hok]
  | true => exact (MemMove.push q r hq hr hok).single

/-- A rewriting that only moves a request on. -/
theorem tag_moves {f : MemReq → MemReq} (hsame : SameTask (f (s.req r)) (s.req r))
    (hstate : (f (s.req r)).state = .fillWaitDone → (s.req r).state = .fillWaitDone) :
    MemMoves cfg sc s (s.modReq r f) :=
  (MemMove.tag r f hsame fun h => .inl (hstate h)).single

/-- Sending a request to a fill queue of the scope is a move. -/
theorem fill_moves (hq : sc.queue ⟨d, .fillQueue⟩) (hr : Created (books s) r) :
    MemMoves cfg sc s (s.fill cfg d r).1 := by
  unfold Mem.fill
  dsimp only
  split
  · apply (push_moves hq hr).trans
    dsimp only
    apply tag_moves
    · constructor <;> rfl
    · simp
  · exact .refl

/-- Sending a request to an input queue of the scope is a move. -/
theorem insert_moves (hf : Fine cfg sc.strict s) (hq : sc.queue ⟨d, .inQueue⟩)
    (hr : Created (books s) r) : MemMoves cfg sc s (s.insert cfg d r).1 := by
  unfold Mem.insert
  dsimp only
  split
  · apply (push_moves hq hr).trans
    dsimp only
    apply tag_moves
    · constructor <;> rfl
    · exact id
  · apply MemMove.single
    apply MemMove.retry d ((s.dcu d).retryQueue ++ [r])
    intro x hx
    rcases List.mem_append.mp hx with hx | hx
    · exact hf.kinds.lists (.retry d) x hx
    · obtain rfl := List.mem_singleton.mp hx
      exact hr

/-- Sending a request to an output queue of the scope is a move. -/
theorem toOutQueue_moves {f : MemReq → MemReq} (hq : sc.queue ⟨d, .outQueue⟩)
    (hr : Created (books s) r) (hsame : ∀ req, SameTask (f req) req)
    (hstate : ∀ req, (f req).state ≠ .fillWaitDone) :
    MemMoves cfg sc s (s.toOutQueue cfg d r f).1 := by
  unfold Mem.toOutQueue
  dsimp only
  split
  · apply (push_moves hq hr).trans
    dsimp only
    apply tag_moves
    · exact hsame _
    · intro h
      exact absurd h (hstate _)
  · exact .refl

/-! ## Caches -/

/-- A level gets another cache of the same geometry. -/
theorem setCache_moves {c c' : Cache DcacheData} (hc : c ∈ (s.dcu d).cache)
    (hparam : c'.param = c.param) (hcache : sc.cache d ∨ KeepsDirty (some c) (some c')) :
    MemMoves cfg sc s (s.setCache d c') := by
  apply MemMove.single
  apply MemMove.level
  · rfl
  · rfl
  · rcases hcache with hcache | hcache
    · exact .inl hcache
    · refine .inr ?_
      rw [Option.mem_def.mp hc]
      exact hcache
  · intro c'' hc''
    obtain rfl := Option.some.inj hc''
    exact ⟨c, hc, hparam⟩

/-- An access of a cache keeps its dirty lines. -/
theorem keepsDirty_access {c c' : Cache DcacheData} {now : Counter} {a : Addr} {upd : Bool}
    {o : Option Slot} (h : c.accessCache now a upd = (o, c')) : KeepsDirty (some c) (some c') := by
  intro b hb
  simpa [dirtyIn, accessCache_keeps h b] using hb

/-- Rewriting a line without making it clean. -/
theorem keepsDirty_modifyData (c : Cache DcacheData) (l : Slot) {f : DcacheData → DcacheData}
    (hf : ∀ x, x.dirty = true → (f x).dirty = true) :
    KeepsDirty (some c) (some (c.modifyData l f)) := by
  intro b hb
  simp only [dirtyIn, Option.any_some, lookup_modifyData] at hb ⊢
  cases hl : c.lookup b with
  | none => simp [hl] at hb
  | some k =>
      simp only [hl, Option.bind_some, data_modifyData] at hb ⊢
      split
      · cases hd : c.data? k with
        | none => simp [hd] at hb
        | some x =>
            simp only [hd, Option.any_some, Option.map_some] at hb ⊢
            exact hf x hb
      · exact hb

/-- A line that a walk finds is dirty once it is marked. -/
theorem lineDirty_mark {c : Cache DcacheData} {a : Addr} {l : Slot} (hl : c.lookup a = some l)
    {f : DcacheData → DcacheData} (hf : ∀ x, (f x).dirty = true) :
    (s.setCache d (c.modifyData l f)).lineDirty d a = true := by
  have hsome := data_of_lookup c hl
  obtain ⟨x, hx⟩ := Option.isSome_iff_exists.mp hsome
  simp [Mem.lineDirty, Mem.setCache, Mem.modDcu, lookup_modifyData, hl, data_modifyData, hx, hf]

/-- Ports and clocks of a level. -/
theorem level_moves {f : Dcu → Dcu} (hqueue : (f (s.dcu d)).queue = (s.dcu d).queue)
    (hretry : (f (s.dcu d)).retryQueue = (s.dcu d).retryQueue)
    (hcache : (f (s.dcu d)).cache = (s.dcu d).cache) : MemMoves cfg sc s (s.modDcu d f) := by
  apply MemMove.single
  apply MemMove.level d f hqueue hretry
  · rw [hcache]
    exact .inr (KeepsDirty.refl _)
  · rw [hcache]
    exact fun c hc => ⟨c, hc, rfl⟩

/-- Taking a write port makes moves and leaves the caches alone. -/
theorem getWritePort_moves (cfg : MemConfig) (sc : Scope) (bank : ℕ) (cycle : Counter) :
    Ensures (s.getWritePort d bank cycle) fun p =>
      MemMoves cfg sc s p.1 ∧ ∀ e, (p.1.dcu e).cache = (s.dcu e).cache := by
  unfold Mem.getWritePort
  refine Ensures.map Ensures.trivial fun p _ => ?_
  dsimp only
  refine ⟨level_moves rfl rfl rfl, fun e => ?_⟩
  by_cases he : e = d
  · subst he
    simp [Mem.modDcu]
  · simp [Mem.modDcu, he]

/-- Taking a read port makes moves. -/
theorem getReadPort_moves (bank : ℕ) (cycle : Counter) :
    Ensures (s.getReadPort d bank cycle) fun p => MemMoves cfg sc s p.1 := by
  unfold Mem.getReadPort
  refine Ensures.map Ensures.trivial fun p _ => ?_
  dsimp only
  exact level_moves rfl rfl rfl

/-- Writing back a victim makes moves and leaves the caches alone. -/
theorem evict_moves {victim : Addr} {data : DcacheData} (hq : sc.queue ⟨d, .wbQueue⟩) :
    Ensures (s.evict cfg d r victim data) fun s' =>
      MemMoves cfg sc s s' ∧ ∀ e, (s'.dcu e).cache = (s.dcu e).cache := by
  unfold Mem.evict Mem.evictOr
  extract_lets data' w s' q
  split
  · refine Ensures.of_some ⟨?_, fun e => cache_push _ _ e⟩
    have hcreate : MemMoves cfg sc s w.1 := (MemMove.create _ _ _ _).single
    have htag : MemMoves cfg sc w.1 s' := by
      apply tag_moves
      · constructor <;> rfl
      · exact id
    have hpush : MemMoves cfg sc s' q.1 := push_moves hq (Nat.lt_succ_self s.nextWb)
    exact (hcreate.trans htag).trans hpush
  · exact Ensures.of_none

/-- Inserting a line makes moves. -/
theorem insertLine_moves {c : Cache DcacheData} (hc : c ∈ (s.dcu d).cache) (hd : sc.cache d)
    (hq : sc.queue ⟨d, .wbQueue⟩) :
    Ensures (s.insertLine cfg d c r) fun s' => MemMoves cfg sc s s' := by
  unfold Mem.insertLine Mem.insertLineOr
  refine Ensures.bind (P := fun p => p.2.2.param = c.param) ?_ fun p hp => ?_
  · intro p hp
    exact (insertCache_lookup hp).1
  · refine Ensures.bind Ensures.trivial fun data _ => ?_
    dsimp only
    split
    · refine Ensures.map (evict_moves hq) fun s' hs' => hs'.1.trans ?_
      apply setCache_moves (c := c)
      · rw [hs'.2 d]
        exact hc
      · exact hp
      · exact .inl hd
    · exact Ensures.of_some (setCache_moves hc hp (.inl hd))

/-! ## Completion -/

/-- Completing a uop makes moves. -/
theorem completeUop_moves (u : ℕ) (countParent : Bool) :
    MemMoves cfg sc s (s.completeUop u countParent) := by
  apply MemMove.single
  apply MemMove.aside
  unfold Mem.completeUop
  dsimp only
  split
  · split
    · constructor <;> rfl
    · split <;> constructor <;> rfl
  · constructor <;> rfl

/-- An event without a condition. -/
theorem note_moves {e : Event} (h : Notable cfg sc s e) : MemMoves cfg sc s (s.record e) :=
  (MemMove.note e h).single

/-- The effect of a completion makes moves. -/
theorem doneEffect_moves (hr : sc.completes r) :
    MemMoves cfg sc s (s.doneEffect cfg d r) := by
  unfold Mem.doneEffect
  extract_lets t
  have ht : MemMoves cfg sc s t := by
    dsimp only [t]
    split
    · rename_i hstore
      exact note_moves ⟨hr, rfl, hstore.1, hstore.2⟩
    · exact .refl
  refine ht.trans ?_
  split
  · exact .refl
  · exact (completeUop_moves _ _).trans (note_moves trivial)

/-- What a completion may do: it fills L1 caches, whose victims enter their write-back
queues, and completes a set of requests that contains everything merged into them. -/
structure Completing (sc : Scope) (s : Mem) : Prop where
  issues : ¬ sc.issues
  cache : ∀ d, d.level = .l1 → sc.cache d
  queue : ∀ d, d.level = .l1 → sc.queue ⟨d, .wbQueue⟩
  merged : ∀ r, sc.completes r → ∀ c ∈ (s.req r).merge, sc.completes c

/-- What a completion may do stays so under moves. -/
theorem Completing.after {t : Mem} (h : Completing sc s) (hm : MemMoves cfg sc s t) :
    Completing sc t :=
  ⟨h.issues, h.cache, h.queue, fun r hr c hc => h.merged r hr c ((hm.calm h.issues).merge r hc)⟩

/-- The completion at an L1 cache makes moves. -/
theorem dcuDone_moves (hsc : Completing sc s) (hd : d.level = .l1) (hr : sc.completes r) :
    Ensures (s.dcuDone cfg d r) fun p => MemMoves cfg sc s p.1 := by
  unfold Mem.dcuDone Mem.dcuDoneOr
  split
  · exact Ensures.of_some .refl
  · split
    · exact Ensures.of_some (doneEffect_moves hr)
    · refine Ensures.bind (P := fun c => c ∈ (s.dcu d).cache) (fun c hc => hc) fun c hc => ?_
      refine Ensures.bind (getWritePort_moves cfg sc _ _) fun p hp => ?_
      have hc' : c ∈ (p.1.dcu d).cache := by
        rw [hp.2 d]
        exact hc
      split
      · split
        · rename_i c1 hmiss
          obtain ⟨rfl, -⟩ := accessCache_miss hmiss
          refine Ensures.map (insertLine_moves hc' (hsc.cache d hd) (hsc.queue d hd)) ?_
          intro s' hs'
          exact (hp.1.trans hs').trans (doneEffect_moves hr)
        · rename_i l c1 hhit
          apply Ensures.of_some
          refine (hp.1.trans ?_).trans (doneEffect_moves hr)
          exact setCache_moves hc' (accessCache_hit hhit).2 (.inl (hsc.cache d hd))
      · exact Ensures.of_some hp.1

/-- The completion of a request makes moves. -/
theorem done_moves (hsc : Completing sc s) (hr : sc.completes r) :
    Ensures (s.done cfg r) fun p => MemMoves cfg sc s p.1 :=
  dcuDone_moves hsc rfl hr

/-- The completion of a write makes moves. -/
theorem writeDone_moves : Ensures (s.writeDone cfg r) fun s' => MemMoves cfg sc s s' := by
  unfold Mem.writeDone
  refine Ensures.map Ensures.trivial fun u _ => ?_
  exact (completeUop_moves _ _).trans (note_moves trivial)

/-- The fill of an instruction line makes moves. -/
theorem icacheFillLine_moves :
    Ensures (s.icacheFillLine cfg r) fun s' => MemMoves cfg sc s s' := by
  unfold Mem.icacheFillLine
  refine Ensures.map Ensures.trivial fun c _ => ?_
  apply MemMove.single
  apply MemMove.aside
  constructor <;> rfl

/-- The fill of a read-only line makes moves. -/
theorem cacheFillLine_moves :
    Ensures (s.cacheFillLine cfg r) fun s' => MemMoves cfg sc s s' := by
  unfold Mem.cacheFillLine
  refine Ensures.bind Ensures.trivial fun u _ => ?_
  refine Ensures.map (P := fun t => MemMoves cfg sc s t) ?_ fun t ht => ?_
  · split
    · refine Ensures.map Ensures.trivial fun p _ => ?_
      apply MemMove.single
      apply MemMove.aside
      constructor <;> rfl
    · refine Ensures.map Ensures.trivial fun p _ => ?_
      apply MemMove.single
      apply MemMove.aside
      constructor <;> rfl
    · exact Ensures.of_none
  · exact (ht.trans (completeUop_moves _ _)).trans (note_moves trivial)

/-- An entry counts as created. -/
theorem IsEntry.created {b : Books} (h : IsEntry r) : Created b r := by
  cases r with
  | mshr c i => trivial
  | pool n => exact h.elim
  | wb n => exact h.elim

/-- A request is freed.  It is not one of the pool, and a write-back is accounted for. -/
theorem clearReq_moves (hf : Fine cfg sc.strict s) (core : ℕ) (hr : Created (books s) r)
    (hpool : ∀ n, r ≠ .pool n) (hmerge : (s.req r).merge = [])
    (hwb : (s.req r).type = .wb → sc.strict → (s.req r).done = true ∨ Event.toDram r ∈ s.log) :
    MemMoves cfg sc s (s.clearReq core r) := by
  unfold Mem.clearReq
  split
  · rename_i ht
    exact (MemMove.delete r hr ht (hwb ht)).single
  · rename_i ht
    have hentry : IsEntry r := by
      cases r with
      | mshr c i => trivial
      | pool n => exact absurd rfl (hpool n)
      | wb n => exact absurd (hf.kinds.wb n hr) ht
    exact (MemMove.release core r hentry hmerge).single

/-- What the completion functions do. -/
def WrapperMoves (cfg : MemConfig) (sc : Scope)
    (w : DoneFunc → ReqId → Mem → Option (Mem × Bool)) : Prop :=
  ∀ f r s, Fine cfg sc.strict s → Completing sc s → sc.completes r →
    Ensures (w f r s) fun p => MemMoves cfg sc s p.1

section

variable {w : DoneFunc → ReqId → Mem → Option (Mem × Bool)} (hw : WrapperMoves cfg sc w)

include hw

/-- The callback of a request makes moves. -/
theorem callback_moves (hf : Fine cfg sc.strict s) (hsc : Completing sc s) (hr : sc.completes r) :
    Ensures (Mem.callback w r s) fun p => MemMoves cfg sc s p.1 := by
  unfold Mem.callback
  split
  · exact Ensures.of_some .refl
  · exact hw _ r s hf hsc hr

/-- Freeing a request makes moves. -/
theorem freeReq_moves (hf : Fine cfg sc.strict s) (hsc : Completing sc s) (hr : sc.completes r)
    (core : ℕ) (hcr : Created (books s) r) (hpool : ∀ n, r ≠ .pool n)
    (hwb : (s.req r).type = .wb → sc.strict → (s.req r).done = true ∨ Event.toDram r ∈ s.log) :
    Ensures (Mem.freeReq w core r s) fun s' => MemMoves cfg sc s s' := by
  unfold Mem.freeReq
  have hserved : Ensures (if (s.req r).merge = [] then some s else
      (w .dcacheFillLine r s).map (·.1)) fun t => MemMoves cfg sc s t ∧
        ((t.req r).type = .wb → sc.strict → (t.req r).done = true ∨ Event.toDram r ∈ t.log) := by
    split
    · exact Ensures.of_some ⟨.refl, hwb⟩
    · rename_i hmerge
      refine Ensures.map (hw _ r s hf hsc hr) fun p hp => ⟨hp, fun ht => ?_⟩
      -- only entries have merged requests, and they never become write-backs
      obtain ⟨c, hc⟩ := List.exists_mem_of_ne_nil _ hmerge
      have hentry : IsEntry r := (hf.kinds.lists (.merged r) c hc).1
      cases r with
      | mshr core i => exact absurd ht ((MemMoves.fine hp hf).kinds.entry core i).1
      | pool n => exact hentry.elim
      | wb n => exact hentry.elim
  refine Ensures.bind hserved fun t ht => ?_
  split
  · rename_i hmerge
    apply Ensures.of_some
    refine ht.1.trans ?_
    exact clearReq_moves (MemMoves.fine ht.1 hf) core (ht.1.grows.created hcr) hpool hmerge ht.2
  · exact Ensures.of_none

/-- Serving the merged requests makes moves, and those it completes were merged or done before. -/
theorem serveMerged_moves (rest : List ReqId) (hf : Fine cfg sc.strict s) (hsc : Completing sc s)
    (hrest : ∀ c ∈ rest, sc.completes c) (doneList : List ReqId) (result : Bool) :
    Ensures (Mem.serveMerged w rest s doneList result) fun p =>
      MemMoves cfg sc s p.1 ∧ ∀ c ∈ p.2.1, c ∈ doneList ∨ c ∈ rest := by
  induction rest generalizing s doneList result with
  | nil => exact Ensures.of_some ⟨.refl, fun c hc => .inl hc⟩
  | cons c rest ih =>
      unfold Mem.serveMerged
      refine Ensures.bind (callback_moves hw hf hsc (hrest c List.mem_cons_self)) fun p hp => ?_
      have hrest' : ∀ x ∈ rest, sc.completes x := fun x hx =>
        hrest x (List.mem_cons_of_mem c hx)
      split
      · refine (ih (MemMoves.fine hp hf) (hsc.after hp) hrest' _ _).mono ?_
        rintro q ⟨hq, hmem⟩
        refine ⟨hp.trans hq, fun x hx => ?_⟩
        rcases hmem x hx with hx | hx
        · rcases List.mem_append.mp hx with hx | hx
          · exact .inl hx
          · obtain rfl := List.mem_singleton.mp hx
            exact .inr List.mem_cons_self
        · exact .inr (List.mem_cons_of_mem c hx)
      · refine (ih (MemMoves.fine hp hf) (hsc.after hp) hrest' _ _).mono ?_
        rintro q ⟨hq, hmem⟩
        refine ⟨hp.trans hq, fun x hx => ?_⟩
        rcases hmem x hx with hx | hx
        · exact .inl hx
        · exact .inr (List.mem_cons_of_mem c hx)

/-- Releasing the merged requests makes moves. -/
theorem releaseMerged_moves (rest : List ReqId) (hf : Fine cfg sc.strict s) (hsc : Completing sc s)
    (hrest : ∀ c ∈ rest, sc.completes c ∧ IsEntry c) :
    Ensures (Mem.releaseMerged w r rest s) fun s' => MemMoves cfg sc s s' := by
  induction rest generalizing s with
  | nil => exact Ensures.of_some .refl
  | cons c rest ih =>
      unfold Mem.releaseMerged
      extract_lets t
      have ht : MemMoves cfg sc s t := (MemMove.unlink r c).single
      obtain ⟨hc, hentry⟩ := hrest c List.mem_cons_self
      have hfree : Ensures (Mem.freeReq w (t.req c).coreId c t) fun s' => MemMoves cfg sc t s' := by
        refine freeReq_moves hw (MemMoves.fine ht hf) (hsc.after ht) hc _ hentry.created ?_ ?_
        · rintro n rfl
          exact hentry
        · intro htype
          cases c with
          | mshr core i => exact absurd htype ((MemMoves.fine ht hf).kinds.entry core i).1
          | pool n => exact hentry.elim
          | wb n => exact hentry.elim
      refine Ensures.bind hfree fun u hu => ?_
      refine MemMoves.andThen (ht.trans hu) ?_
      exact ih (MemMoves.fine (ht.trans hu) hf) (hsc.after (ht.trans hu)) fun x hx =>
        hrest x (List.mem_cons_of_mem c hx)

/-- Completing the merged requests makes moves. -/
theorem completeMerged_moves (hf : Fine cfg sc.strict s) (hsc : Completing sc s) (hr : sc.completes r) :
    Ensures (Mem.completeMerged w r s) fun p => MemMoves cfg sc s p.1 := by
  unfold Mem.completeMerged
  refine Ensures.bind (serveMerged_moves hw _ hf hsc (hsc.merged r hr) [] true) fun p hp => ?_
  refine Ensures.map (releaseMerged_moves hw p.2.1 (MemMoves.fine hp.1 hf) (hsc.after hp.1) ?_)
    fun t ht => hp.1.trans ht
  intro c hc
  rcases hp.2 c hc with hc | hc
  · simp at hc
  · exact ⟨hsc.merged r hr c hc, (hf.kinds.lists (.merged r) c hc).2⟩

end

/-- By induction on the fuel: the recursive calls are the completions of merged requests. -/
theorem wrapper_moves (n : ℕ) : WrapperMoves cfg sc (Mem.wrapper cfg n) := by
  induction n with
  | zero => exact fun f r s _ _ _ => Ensures.of_none
  | succ n ih =>
      intro f r s hf hsc hr
      unfold Mem.wrapper Mem.wrapperOr
      extract_lets t
      have ht : MemMoves cfg sc s t := note_moves trivial
      have hmerged := completeMerged_moves ih (MemMoves.fine ht hf) (hsc.after ht) hr
      cases f with
      | dcacheFillLine =>
          refine Ensures.bind hmerged fun p hp => ?_
          split
          · refine MemMoves.andThen (ht.trans hp) ?_
            exact done_moves (hsc.after (ht.trans hp)) hr
          · exact Ensures.of_some (ht.trans hp)
      | icacheFillLine =>
          refine Ensures.bind hmerged fun p hp => ?_
          exact Ensures.map icacheFillLine_moves fun u hu => (ht.trans hp).trans hu
      | readonlyCacheFillLine =>
          refine Ensures.bind hmerged fun p hp => ?_
          split
          · exact Ensures.map cacheFillLine_moves fun u hu => (ht.trans hp).trans hu
          · exact Ensures.of_some (ht.trans hp)
      | dcacheWriteAck => exact Ensures.map writeDone_moves fun u hu => ht.trans hu

end MacSim.Analysis
