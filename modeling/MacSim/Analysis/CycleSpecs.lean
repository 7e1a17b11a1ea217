import MacSim.Analysis.MemSpecs

/-!
# A cycle of a level is a sequence of moves

The four loops of `run_a_cycle` have one shape, so one rule serves them: what every body and
every removal keeps, the loop keeps.  The bodies are followed branch by branch.  The places
where a write-back is marked done are the ones to look at: an enabled level has its line
dirty by then, which is what the log notes; a disabled level has nothing to note, and the
fill specifications ask that it is not offered a write-back.
-/

set_option autoImplicit false

namespace MacSim.Analysis

open MacSim.Model MacSim.Computation

variable {cfg : MemConfig} {sc : Scope} {s : Mem} {r : ReqId} {d : DcuId}

/-! ## The loop -/

/-- What every body keeps, the loop keeps; only requests of the list are collected. -/
theorem serveLoop_ensures {stop : Mem → Bool} {body : ReqId → Mem → Option (Mem × Bool)}
    {I : Mem → Prop} (xs : List ReqId) (hs : I s)
    (hbody : ∀ r ∈ xs, ∀ t, I t → Ensures (body r t) fun p => I p.1) (doneList : List ReqId) :
    Ensures (Mem.serveLoop stop body xs s doneList) fun p =>
      I p.1 ∧ ∀ r ∈ p.2, r ∈ doneList ∨ r ∈ xs := by
  induction xs generalizing s doneList with
  | nil => exact Ensures.of_some ⟨hs, fun r hr => .inl hr⟩
  | cons r xs ih =>
      unfold Mem.serveLoop
      split
      · exact Ensures.of_some ⟨hs, fun r hr => .inl hr⟩
      · refine Ensures.bind (hbody r List.mem_cons_self s hs) fun p hp => ?_
        refine (ih hp (fun x hx => hbody x (List.mem_cons_of_mem r hx)) _).mono ?_
        rintro q ⟨hq, hmem⟩
        refine ⟨hq, fun x hx => ?_⟩
        rcases hmem x hx with hx | hx
        · split at hx
          · rcases List.mem_append.mp hx with hx | hx
            · exact .inl hx
            · obtain rfl := List.mem_singleton.mp hx
              exact .inr List.mem_cons_self
          · exact .inl hx
        · exact .inr (List.mem_cons_of_mem r hx)

/-- What the body and the end of a loop preserve, the loop preserves. -/
theorem serve_ensures {stop : Mem → Bool} {body : ReqId → Mem → Option (Mem × Bool)}
    {finish : Mem → ReqId → Option Mem} {q : QueueId} {I : Mem → Prop} (hs : I s)
    (hbody : ∀ r ∈ s.entries q, ∀ t, I t → Ensures (body r t) fun p => I p.1)
    (hfinish : ∀ r ∈ s.entries q, ∀ t, I t → Ensures (finish t r) I) :
    Ensures (Mem.serve stop body finish q s) I := by
  unfold Mem.serve
  refine Ensures.bind (serveLoop_ensures _ hs hbody []) fun p hp => ?_
  apply Ensures.foldlM _ _ hp.1
  intro t ht r hr
  rcases hp.2 r hr with hr | hr
  · simp at hr
  · exact hfinish r hr t ht

/-! ## Requests by kind -/

/-- A request is a write-back if its type says so. -/
theorem Kinds.wb_of_type (hk : Kinds cfg (books s)) (hr : Created (books s) r)
    (ht : (s.req r).type = .wb) : ∃ n < s.nextWb, r = .wb n := by
  cases r with
  | mshr c i => exact absurd ht (hk.entry c i).1
  | pool n =>
      have hwt : cfg.writeThrough (s.req (.pool n)).type (s.req (.pool n)).acc = true :=
        hk.pool n hr
      rw [ht] at hwt
      simp [MemConfig.writeThrough] at hwt
  | wb n => exact ⟨n, hr, rfl⟩

/-- A request is of the pool if it is written through. -/
theorem Kinds.pool_of_writeThrough (hk : Kinds cfg (books s)) (hr : Created (books s) r)
    (hwt : cfg.writeThrough (s.req r).type (s.req r).acc = true) :
    ∃ n < s.nextPool, r = .pool n := by
  cases r with
  | mshr c i =>
      have hne : cfg.writeThrough (s.req (.mshr c i)).type (s.req (.mshr c i)).acc = false :=
        (hk.entry c i).2
      rw [hne] at hwt
      cases hwt
  | pool n => exact ⟨n, hr, rfl⟩
  | wb n =>
      have ht : (s.req (.wb n)).type = .wb := hk.wb n hr
      rw [ht] at hwt
      simp [MemConfig.writeThrough] at hwt

/-- What is no write-back now is none later. -/
theorem Kinds.type_ne_wb {t : Mem} (hk : Kinds cfg (books s)) (hk' : Kinds cfg (books t))
    (hr : Created (books s) r) (hr' : Created (books t) r) (ht : (s.req r).type ≠ .wb) :
    (t.req r).type ≠ .wb := by
  intro ht'
  obtain ⟨n, -, rfl⟩ := hk'.wb_of_type hr' ht'
  exact ht (hk.wb n hr)

/-! ## Served requests -/

/-- The queues that a level may fill while it works. -/
structure Working (sc : Scope) (d : DcuId) : Prop where
  out : sc.queue ⟨d, .outQueue⟩
  wb : sc.queue ⟨d, .wbQueue⟩
  near : ∀ q : QueueId, q.dcu.level ≠ d.level → sc.queue q

/-- Retiring a served request makes moves only. -/
theorem retireServed_moves {q : QueueId} (hf : Fine cfg sc.strict s) (hsc : Completing sc s)
    (hr : (s.req r).done = true → sc.completes r) (hcr : Created (books s) r) :
    Ensures (Mem.retireServed cfg q s r) fun s' => MemMoves cfg sc s s' := by
  unfold Mem.retireServed Mem.retireServedOr
  extract_lets t
  have ht : MemMoves cfg sc s t := (MemMove.pop q r).single
  have hft := MemMoves.fine ht hf
  have hcr' := ht.grows.created hcr
  split
  · rename_i hdone
    split
    · rename_i hwt
      obtain ⟨n, hn, rfl⟩ := hft.kinds.pool_of_writeThrough hcr' hwt
      exact Ensures.of_some (ht.trans (MemMove.recycle n hn).single)
    · rename_i hwt
      refine MemMoves.andThen ht ?_
      refine freeReq_moves (wrapper_moves _) hft (hsc.after ht) (hr hdone) _ hcr' ?_ ?_
      · rintro n rfl
        exact hwt (hft.kinds.pool n hcr')
      · exact fun _ _ => .inl hdone
  · exact Ensures.of_some ht

/-- Noting what a write-back dirtied makes a move only. -/
theorem noteDirtied_moves (hd : (cfg.flags d).disable = false) :
    MemMoves cfg sc s (s.noteDirtied d r) := by
  unfold Mem.noteDirtied
  split
  · rename_i hdirty
    exact note_moves ⟨hd, hdirty⟩
  · exact .refl

/-- What is noted is settled. -/
theorem settled_noteDirtied (hd : (cfg.flags d).disable = false)
    (hdirty : s.lineDirty d (s.req r).addr = true) : Settled cfg (s.noteDirtied d r).log r := by
  unfold Mem.noteDirtied
  rw [if_pos hdirty]
  exact .inl ⟨d, hd, List.mem_cons_self⟩

/-- Marking a request as done makes a move only. -/
theorem markDone_moves (hr : sc.completes r)
    (hwb : sc.strict → (s.req r).type = .wb → Settled cfg s.log r) :
    MemMoves cfg sc s (s.markDone r) :=
  (MemMove.finish r hr hwb).single

/-- The level above is another one. -/
theorem prevLevel_ne {l l' : Level} (h : Mem.prevLevel l = some l') : l' ≠ l := by
  cases l <;> simp [Mem.prevLevel] at h <;> subst h <;> simp

/-- The level below is another one. -/
theorem nextLevel_ne {l l' : Level} (h : Mem.nextLevel l = some l') : l' ≠ l := by
  cases l <;> simp [Mem.nextLevel] at h <;> subst h <;> simp

/-- A fill of the level above makes moves only. -/
theorem fillPrev_moves (hw : Working sc d) (hcr : Created (books s) r) (id : ℕ) :
    Ensures (Mem.fillPrev cfg s d id r) fun p => MemMoves cfg sc s p.1 := by
  intro p hp
  obtain ⟨l, hl, rfl⟩ := Option.map_eq_some_iff.mp hp
  apply fill_moves
  · exact hw.near _ (prevLevel_ne hl)
  · exact hcr

/-! ## The input queue -/

/-- A hit keeps every dirty line and makes the line of a store or a write-back dirty. -/
theorem markHit_moves (cfg : MemConfig) (sc : Scope) {c c' : Cache DcacheData} {now : Counter} {upd : Bool} {l : Slot}
    (hc : c ∈ (s.dcu d).cache) (hhit : c.accessCache now (s.req r).addr upd = (some l, c')) :
    MemMoves cfg sc s (Mem.markHit d r c' l s) ∧
      ((s.req r).type = .dstore ∨ (s.req r).type = .wb →
        (Mem.markHit d r c' l s).lineDirty d (s.req r).addr = true) := by
  obtain ⟨hl, hparam⟩ := accessCache_hit hhit
  unfold Mem.markHit
  split
  · rename_i ht
    constructor
    · apply setCache_moves hc
      · exact hparam
      · refine .inr fun a ha => ?_
        apply keepsDirty_modifyData
        · exact fun _ _ => rfl
        · exact keepsDirty_access hhit a ha
    · intro _
      exact lineDirty_mark hl fun _ => rfl
  · rename_i ht
    constructor
    · exact setCache_moves hc hparam (.inr (keepsDirty_access hhit))
    · exact fun ht' => absurd ht' ht

/-- A hit in the input queue makes moves only. -/
theorem inHit_moves (hf : Fine cfg sc.strict s) (hsc : Completing sc s) (hw : Working sc d)
    (hr : (cfg.flags d).done = true ∨ (s.req r).type = .wb → sc.completes r) (hcr : Created (books s) r) (hd : (cfg.flags d).disable = false)
    (hdirty : (s.req r).type = .wb → s.lineDirty d (s.req r).addr = true) :
    Ensures (Mem.inHit cfg d r s) fun p => MemMoves cfg sc s p.1 := by
  unfold Mem.inHit
  split
  · rename_i ht
    apply Ensures.of_some
    refine Relation.ReflTransGen.trans (noteDirtied_moves hd) (markDone_moves (hr (.inr ht)) ?_)
    exact fun _ _ => settled_noteDirtied hd (hdirty ht)
  · rename_i ht
    split
    · rename_i hdone
      refine Ensures.map (callback_moves (wrapper_moves _) hf hsc (hr (.inl hdone))) fun p hp => ?_
      split
      · refine hp.trans (markDone_moves (hr (.inl hdone)) ?_)
        intro _ ht'
        exact absurd ht' (hf.kinds.type_ne_wb (MemMoves.fine hp hf).kinds hcr
          (hp.grows.created hcr) ht)
      · exact hp
    · split
      · split
        · exact fillPrev_moves hw hcr _
        · exact Ensures.of_none
      · apply Ensures.of_some
        apply toOutQueue_moves hw.out hcr
        · intro req
          constructor <;> rfl
        · simp

/-- A miss in the input queue makes moves only. -/
theorem inMiss_moves (hf : Fine cfg sc.strict s) (hw : Working sc d) (hcr : Created (books s) r) :
    Ensures (Mem.inMiss cfg d r s) fun p => MemMoves cfg sc s p.1 := by
  unfold Mem.inMiss
  split
  · split
    · exact Ensures.of_none
    · intro p hp
      obtain ⟨l, hl, rfl⟩ := Option.map_eq_some_iff.mp hp
      have hins : MemMoves cfg sc s
          (s.insert cfg ⟨l, (s.req r).cacheId d.level.lower⟩ r).1 :=
        insert_moves hf (hw.near _ (nextLevel_ne hl)) hcr
      dsimp only
      split
      · exact hins
      · exact hins.trans (note_moves trivial)
  · apply Ensures.of_some
    apply toOutQueue_moves hw.out hcr
    · intro req
      constructor <;> rfl
    · simp

/-- The three ways through the body: not ready, a miss, and a hit in an enabled level. -/
theorem inBody_cases {Q : Mem × Bool → Prop} (hidle : Q (s, false))
    (hmiss : Ensures (Mem.inMiss cfg d r s) Q)
    (hhit : (cfg.flags d).disable = false → ∀ c ∈ (s.dcu d).cache, ∀ now upd l c',
      c.accessCache now (s.req r).addr upd = (some l, c') →
        Ensures (Mem.inHit cfg d r (Mem.markHit d r c' l s)) Q) :
    Ensures (Mem.inBody cfg d r s) Q := by
  unfold Mem.inBody
  split
  · exact Ensures.of_some hidle
  · split
    · exact hmiss
    · rename_i hen
      refine Ensures.bind (P := fun c => c ∈ (s.dcu d).cache) (fun c hc => hc) fun c hc => ?_
      split
      · rename_i l c' hacc
        exact hhit (by simpa using fun h => hen (.inr h)) c hc _ _ l c' hacc
      · exact hmiss

/-- The body of the loop over the input queue makes moves only. -/
theorem inBody_moves (hf : Fine cfg sc.strict s) (hsc : Completing sc s) (hw : Working sc d)
    (hr : sc.completes r) (hcr : Created (books s) r) :
    Ensures (Mem.inBody cfg d r s) fun p => MemMoves cfg sc s p.1 := by
  apply inBody_cases
  · exact .refl
  · exact inMiss_moves hf hw hcr
  · intro hen c hc now upd l c' hacc
    obtain ⟨hmark, hdirty⟩ := markHit_moves cfg sc hc hacc
    refine MemMoves.andThen hmark ?_
    exact inHit_moves (MemMoves.fine hmark hf) (hsc.after hmark) hw (fun _ => hr)
      (hmark.grows.created hcr) hen fun ht => hdirty (.inr ht)

/-- The loop over the input queue makes moves only. -/
theorem processInQueue_moves (hf : Fine cfg sc.strict s) (hsc : Completing sc s) (hw : Working sc d)
    (hr : ∀ r ∈ s.entries ⟨d, .inQueue⟩, sc.completes r) :
    Ensures (Mem.processInQueue cfg d s) fun s' => MemMoves cfg sc s s' := by
  have hcr (r : ReqId) (h : r ∈ s.entries ⟨d, .inQueue⟩) : Created (books s) r :=
    hf.kinds.lists (.queue ⟨d, .inQueue⟩) r h
  unfold Mem.processInQueue
  refine serve_ensures (I := fun t => MemMoves cfg sc s t) .refl ?_ ?_
  · intro r hmem t ht
    refine MemMoves.andThen ht ?_
    exact inBody_moves (MemMoves.fine ht hf) (hsc.after ht) hw (hr r hmem)
      (ht.grows.created (hcr r hmem))
  · intro r hmem t ht
    refine MemMoves.andThen ht ?_
    exact retireServed_moves (MemMoves.fine ht hf) (hsc.after ht) (fun _ => hr r hmem)
      (ht.grows.created (hcr r hmem))

/-! ## The fill queue -/

/-- What `insertLine` leaves in the cache, when the line was not there. -/
theorem insertLine_dirty {c : Cache DcacheData} (hmiss : c.lookup (s.req r).addr = none)
    (hdirty : (s.req r).dirty = true) :
    Ensures (s.insertLine cfg d c r) fun s' => s'.lineDirty d (s.req r).addr = true := by
  unfold Mem.insertLine Mem.insertLineOr
  intro s' hs'
  obtain ⟨p, hp, hs'⟩ := Option.bind_eq_some_iff.mp hs'
  obtain ⟨data, -, hs'⟩ := Option.bind_eq_some_iff.mp hs'
  have hl := (insertCache_lookup hp).2 hmiss
  dsimp only at hs'
  split at hs'
  · obtain ⟨t, -, rfl⟩ := Option.map_eq_some_iff.mp hs'
    exact lineDirty_mark hl fun _ => hdirty
  · obtain rfl := Option.some.inj hs'
    exact lineDirty_mark hl fun _ => hdirty

/-- An insertion rewrites no request but the write-back it creates. -/
theorem insertLine_req {c : Cache DcacheData} (hcr : Created (books s) r) :
    Ensures (s.insertLine cfg d c r) fun s' => s'.req r = s.req r := by
  unfold Mem.insertLine Mem.insertLineOr
  refine Ensures.bind Ensures.trivial fun p _ => ?_
  refine Ensures.bind Ensures.trivial fun data _ => ?_
  dsimp only
  split
  · refine Ensures.map (P := fun t => t.req r = s.req r) ?_ fun t ht => ht
    unfold Mem.evictOr
    extract_lets data' w s' q
    have hne : r ≠ .wb s.nextWb := by
      rintro rfl
      exact absurd hcr (lt_irrefl _)
    split
    · apply Ensures.of_some
      have hpush : q.1.req r = s'.req r := by
        dsimp only [q, Mem.push]
        split
        · rfl
        · simp [Mem.setEntries, Mem.modDcu, Mem.modReq, w, Mem.newWbReq, hne]
      rw [hpush]
      simp [s', w, Mem.modReq, Mem.newWbReq, hne]
    · exact Ensures.of_none
  · exact Ensures.of_some rfl

/-- A write port is in no request. -/
theorem getWritePort_req (bank : ℕ) (cycle : Counter) :
    Ensures (s.getWritePort d bank cycle) fun p => p.1.req = s.req := by
  unfold Mem.getWritePort
  exact Ensures.map Ensures.trivial fun p _ => rfl

/-- The cache access of a fill.  In an enabled level the line of a write-back is dirty
afterwards. -/
theorem fillAccess_moves (hf : Fine cfg sc.strict s) (hd : sc.cache d) (hw : Working sc d)
    (hcr : Created (books s) r) :
    Ensures (Mem.fillAccess cfg d r s) fun p => MemMoves cfg sc s p.1 ∧ p.1.req r = s.req r ∧
      (sc.strict → (s.req r).type = .wb → (cfg.flags d).disable = false → p.2 = true →
        p.1.lineDirty d (s.req r).addr = true) := by
  have hdirty (hs : sc.strict) (ht : (s.req r).type = .wb) : (s.req r).dirty = true := by
    obtain ⟨n, hn, rfl⟩ := hf.kinds.wb_of_type hcr ht
    exact (hf.wb hs).dirty n hn
  unfold Mem.fillAccess Mem.fillAccessOr
  split
  · rename_i hdis
    apply Ensures.of_some
    refine ⟨.refl, rfl, fun _ _ hen => ?_⟩
    rw [hen] at hdis
    cases hdis
  · refine Ensures.bind (P := fun c => c ∈ (s.dcu d).cache) (fun c hc => hc) fun c hc => ?_
    split
    · rename_i c' hmiss
      obtain ⟨rfl, hlookup⟩ := accessCache_miss hmiss
      refine Ensures.bind (P := fun p => (MemMoves cfg sc s p.1 ∧
        ∀ e, (p.1.dcu e).cache = (s.dcu e).cache) ∧ p.1.req = s.req) ?_ ?_
      · intro p hp
        exact ⟨getWritePort_moves cfg sc _ _ p hp, getWritePort_req _ _ p hp⟩
      · rintro p ⟨⟨hp, hcache⟩, hreq⟩
        split
        · intro q hq
          obtain ⟨t, ht, rfl⟩ := Option.map_eq_some_iff.mp hq
          have hcp : c' ∈ (p.1.dcu d).cache := by
            rw [hcache d]
            exact hc
          refine ⟨hp.trans (insertLine_moves hcp hd hw.wb t ht), ?_, ?_⟩
          · rw [← hreq]
            exact insertLine_req (hp.grows.created hcr) t ht
          · intro hs htype _ _
            rw [← hreq] at hlookup ⊢
            apply insertLine_dirty _ _ t ht
            · exact hlookup ((hf.wb hs).bypass d c' hc)
            · rw [hreq]
              exact hdirty hs htype
        · exact Ensures.of_some ⟨hp, congrFun hreq r, fun _ _ _ h => nomatch h⟩
    · rename_i l c' hhit
      obtain ⟨hl, hparam⟩ := accessCache_hit hhit
      apply Ensures.of_some
      refine ⟨setCache_moves hc hparam (.inl hd), rfl, fun hs htype _ _ => ?_⟩
      apply lineDirty_mark hl
      intro x
      simp [hdirty hs htype]

/-- Waiting in the fill queue makes a move only. -/
theorem waitFill_moves {p : Mem × Bool} (hp : MemMoves cfg sc s p.1) :
    MemMoves cfg sc s (Mem.waitFill r p).1 := by
  unfold Mem.waitFill
  split
  · exact hp
  · refine hp.trans ?_
    dsimp only
    apply tag_moves
    · constructor <;> rfl
    · simp

/-- The way of a filled request upwards makes moves only. -/
theorem fillUp_moves (hw : Working sc d) (hcr : Created (books s) r) :
    Ensures (Mem.fillUp cfg d r s) fun p => MemMoves cfg sc s p.1 := by
  unfold Mem.fillUp
  split
  · exact Ensures.map (fillPrev_moves hw hcr _) fun p hp => waitFill_moves hp
  · apply Ensures.of_some
    apply waitFill_moves
    apply toOutQueue_moves hw.out hcr
    · intro req
      constructor <;> rfl
    · simp

/-- The way upwards from a disabled level makes moves only. -/
theorem fillUpDisabled_moves (hw : Working sc d) (hcr : Created (books s) r) :
    Ensures (Mem.fillUpDisabled cfg d r s) fun p => MemMoves cfg sc s p.1 := by
  unfold Mem.fillUpDisabled
  dsimp only
  split
  · exact Ensures.map (fillPrev_moves hw hcr _) fun p hp => waitFill_moves hp
  · apply Ensures.of_some
    apply waitFill_moves
    apply toOutQueue_moves hw.out hcr
    · intro req
      constructor <;> rfl
    · simp

/-- A completion that marks the request done.  A write-back is settled before. -/
theorem complete_moves (hf : Fine cfg sc.strict s) (hsc : Completing sc s) (hr : sc.completes r)
    (hcr : Created (books s) r)
    (hwb : sc.strict → (s.req r).type = .wb → Settled cfg s.log r) :
    Ensures (Mem.callback (Mem.wrapper cfg (s.fuel cfg)) r s) fun p =>
      MemMoves cfg sc s p.1 ∧ MemMoves cfg sc s (p.1.markDone r) ∧
        (p.2 = false → sc.strict → ∀ n, r ≠ .wb n) := by
  intro p hp
  have hmoves := callback_moves (wrapper_moves _) hf hsc hr p hp
  refine ⟨hmoves, hmoves.trans (markDone_moves hr fun hs ht => ?_), ?_⟩
  · by_cases ht' : (s.req r).type = .wb
    · exact (hwb hs ht').mono hmoves.grows.log
    · exact absurd ht (hf.kinds.type_ne_wb (MemMoves.fine hmoves hf).kinds hcr
        (hmoves.grows.created hcr) ht')
  · rintro hfalse hs n rfl
    -- a write-back has no completion function, so nothing refuses it
    have hnone := (hf.wb hs).doneFunc n hcr
    simp only [Mem.callback, hnone] at hp
    cases hp
    cases hfalse

/-- A new request in the fill queue makes moves only. -/
theorem fillNew_moves (hf : Fine cfg sc.strict s) (hsc : Completing sc s) (hw : Working sc d)
    (hwaits : (cfg.flags d).done = true → sc.waits)
    (hr : sc.waits ∨ (s.req r).type = .wb → sc.completes r) (hcr : Created (books s) r)
    (hwb : sc.strict → (s.req r).type = .wb → (cfg.flags d).disable = false ∧
      s.lineDirty d (s.req r).addr = true) :
    Ensures (Mem.fillNew cfg d r s) fun p => MemMoves cfg sc s p.1 := by
  unfold Mem.fillNew Mem.fillNewOr
  extract_lets t
  have ht : MemMoves cfg sc s t := by
    dsimp only [t]
    split
    · rename_i hn
      exact noteDirtied_moves hn.2
    · exact .refl
  have hreq : t.req = s.req := by
    dsimp only [t, Mem.noteDirtied]
    split
    · split <;> rfl
    · rfl
  have hset : sc.strict → (t.req r).type = .wb → Settled cfg t.log r := by
    intro hs htype
    rw [hreq] at htype
    obtain ⟨hen, hdirty⟩ := hwb hs htype
    dsimp only [t]
    rw [if_pos ⟨htype, hen⟩]
    exact settled_noteDirtied hen hdirty
  have hft := MemMoves.fine ht hf
  have hcrt := ht.grows.created hcr
  refine MemMoves.andThen ht ?_
  split
  · rename_i hdone
    split
    · exact Ensures.of_none
    · refine Ensures.map (complete_moves hft (hsc.after ht) (hr (.inl (hwaits hdone))) hcrt hset)
        fun p hp => ?_
      split
      · exact hp.2.1
      · rename_i hfalse
        refine hp.1.trans ?_
        dsimp only
        refine (MemMove.tag r _ ?_ ?_).single
        · constructor <;> rfl
        · exact fun _ => .inr ⟨hwaits hdone, hp.2.2 (by simpa using hfalse)⟩
  · split
    · rename_i htype
      rw [hreq] at htype
      exact Ensures.of_some (markDone_moves (hr (.inr htype)) hset)
    · split
      · exact fillUpDisabled_moves hw hcrt
      · exact fillUp_moves hw hcrt

/-- The body of the loop over the fill queue makes moves only. -/
theorem fillBody_moves (hf : Fine cfg sc.strict s) (hsc : Completing sc s) (hw : Working sc d)
    (hd : sc.cache d) (hwaits : (cfg.flags d).done = true → sc.waits)
    (hr : sc.waits ∨ (s.req r).state = .fillWaitDone ∨ (s.req r).type = .wb → sc.completes r)
    (hcr : Created (books s) r)
    (hwb : sc.strict → (cfg.flags d).disable = true → (s.req r).type ≠ .wb) :
    Ensures (Mem.fillBody cfg d r s) fun p => MemMoves cfg sc s p.1 := by
  unfold Mem.fillBody Mem.fillBodyOr
  split
  · rename_i hwt
    split
    · rename_i hdone
      have hne : (s.req r).type ≠ .wb := by
        intro ht
        have := hwt.2
        rw [ht] at this
        simp [MemConfig.writeThrough] at this
      refine Ensures.bind (complete_moves hf hsc (hr (.inl (hwaits hdone.1))) hcr
        fun _ ht => absurd ht hne) fun p hp => ?_
      split
      · exact Ensures.of_some hp.2.1
      · exact Ensures.of_none
    · exact Ensures.of_none
  · split
    · exact Ensures.of_some .refl
    · split
      · refine Ensures.bind (fillAccess_moves hf hd hw hcr) ?_
        rintro p ⟨hp, hreq, hdirty⟩
        split
        · rename_i hok
          refine MemMoves.andThen hp ?_
          apply fillNew_moves (MemMoves.fine hp hf) (hsc.after hp) hw hwaits ?_
            (hp.grows.created hcr)
          · intro hs ht
            rw [hreq] at ht ⊢
            have hen : (cfg.flags d).disable = false := by
              by_contra hdis
              exact hwb hs (by simpa using hdis) ht
            exact ⟨hen, hdirty hs ht hen hok⟩
          · rw [hreq]
            rintro (hwait | htype)
            · exact hr (.inl hwait)
            · exact hr (.inr (.inr htype))
        · exact Ensures.of_some hp
      · rename_i hstate
        refine Ensures.map (complete_moves hf hsc (hr (.inr (.inl hstate))) hcr ?_) fun p hp => ?_
        · intro hs ht
          obtain ⟨n, hn, rfl⟩ := hf.kinds.wb_of_type hcr ht
          exact absurd hstate ((hf.wb hs).state n hn)
        · split
          · exact hp.2.1
          · exact hp.1
      · exact fillUp_moves hw hcr
      · exact Ensures.of_none

/-- The loop over the fill queue makes moves only. -/
theorem processFillQueue_moves (hf : Fine cfg sc.strict s) (hsc : Completing sc s)
    (hw : Working sc d) (hd : sc.cache d) (hwaits : (cfg.flags d).done = true → sc.waits)
    (hr : ∀ r ∈ s.entries ⟨d, .fillQueue⟩, sc.waits ∨ (s.req r).state = .fillWaitDone ∨
      (s.req r).type = .wb ∨ (s.req r).done = true → sc.completes r)
    (hwb : sc.strict → (cfg.flags d).disable = true →
      ∀ r ∈ s.entries ⟨d, .fillQueue⟩, (s.req r).type ≠ .wb) :
    Ensures (Mem.processFillQueue cfg d s) fun s' => MemMoves cfg sc s s' := by
  have hcr (r : ReqId) (h : r ∈ s.entries ⟨d, .fillQueue⟩) : Created (books s) r :=
    hf.kinds.lists (.queue ⟨d, .fillQueue⟩) r h
  unfold Mem.processFillQueue Mem.processFillQueueOr
  refine serve_ensures (I := fun t => MemMoves cfg sc s t) .refl ?_ ?_
  · intro r hmem t ht
    have hcr' := ht.grows.created (hcr r hmem)
    have htype : (s.req r).type ≠ .wb → (t.req r).type ≠ .wb :=
      hf.kinds.type_ne_wb (MemMoves.fine ht hf).kinds (hcr r hmem) hcr'
    refine MemMoves.andThen ht ?_
    apply fillBody_moves (MemMoves.fine ht hf) (hsc.after ht) hw hd hwaits _ hcr'
    · exact fun hs hdis => htype (hwb hs hdis r hmem)
    · rintro (hwait | hstate | hwb')
      · exact hr r hmem (.inl hwait)
      · by_cases hwait : sc.waits
        · exact hr r hmem (.inl hwait)
        · exact hr r hmem (.inr (.inl (ht.state hwait r hstate)))
      · by_contra hne
        refine htype (fun h => hne ?_) hwb'
        exact hr r hmem (.inr (.inr (.inl h)))
  · intro r hmem t ht
    refine MemMoves.andThen ht ?_
    apply retireServed_moves (MemMoves.fine ht hf) (hsc.after ht) _
      (ht.grows.created (hcr r hmem))
    intro hdone
    rcases ht.done r hdone with hold | hnew
    · exact hr r hmem (.inr (.inr (.inr hold)))
    · exact hnew

/-! ## The write-back and output queues -/

/-- The body of the loop over the write-back queue makes moves only. -/
theorem wbBody_moves (hw : Working sc d) (hcr : Created (books s) r) :
    Ensures (Mem.wbBody cfg d r s) fun p => MemMoves cfg sc s p.1 := by
  have hout : MemMoves cfg sc s (s.toOutQueue cfg d r fun req => { req with state := .outWb }).1 := by
    apply toOutQueue_moves hw.out hcr
    · intro req
      constructor <;> rfl
    · simp
  unfold Mem.wbBody
  dsimp only
  split
  · exact Ensures.of_some .refl
  · split
    · rename_i id l _ hl
      split
      · exact Ensures.of_some (fill_moves (hw.near _ (nextLevel_ne hl)) hcr)
      · exact Ensures.of_some hout
    · exact Ensures.of_some hout

/-- The loop over the write-back queue makes moves only. -/
theorem processWbQueue_moves (hf : Fine cfg sc.strict s) (hw : Working sc d) :
    Ensures (Mem.processWbQueue cfg d s) fun s' => MemMoves cfg sc s s' := by
  have hcr (r : ReqId) (h : r ∈ s.entries ⟨d, .wbQueue⟩) : Created (books s) r :=
    hf.kinds.lists (.queue ⟨d, .wbQueue⟩) r h
  unfold Mem.processWbQueue
  refine serve_ensures (I := fun t => MemMoves cfg sc s t) .refl ?_ ?_
  · intro r hmem t ht
    refine MemMoves.andThen ht ?_
    exact wbBody_moves hw (ht.grows.created (hcr r hmem))
  · intro r _ t ht
    exact Ensures.of_some (ht.trans (MemMove.pop _ r).single)

/-- Requests move through the network; what was not there before has been created. -/
theorem carry_moves (hf : Fine cfg sc.strict s) {net : List (DcuId × ReqId)} {rx : DcuId → List ReqId}
    (hnet : ∀ p ∈ net, p ∈ s.net ∨ Created (books s) p.2)
    (hrx : ∀ d, ∀ r ∈ rx d, r ∈ s.rx d ∨ Created (books s) r) :
    MemMoves cfg sc s { s with net := net, rx := rx } := by
  refine (MemMove.carry net rx s.dram ?_ ?_ ?_).single
  · intro p hp
    rcases hnet p hp with hp | hp
    · exact hf.kinds.lists .net p.2 (List.mem_map_of_mem hp)
    · exact hp
  · intro d r hr
    rcases hrx d r hr with hr | hr
    · exact hf.kinds.lists (.rx d) r hr
    · exact hr
  · intro r hr
    exact ⟨hf.kinds.lists .dram r hr, .inl hr⟩

/-- A packet that is sent makes moves only. -/
theorem sendPacket_moves (hf : Fine cfg sc.strict s) (hcr : Created (books s) r) (accept : ReqId → Bool)
    (dst : DcuId) (msgType : NocType) :
    MemMoves cfg sc s (s.sendPacket accept dst r msgType).1 := by
  unfold Mem.sendPacket
  extract_lets t
  have ht : MemMoves cfg sc s t := by
    apply tag_moves
    · constructor <;> rfl
    · exact id
  split
  · have hst : MemMoves cfg sc t (t.modReq r fun req => { req with state := .inNoc }) := by
      apply tag_moves
      · constructor <;> rfl
      · simp
    have hmoves := ht.trans hst
    refine hmoves.trans (carry_moves (MemMoves.fine hmoves hf) ?_ ?_)
    · intro p hp
      rcases List.mem_append.mp hp with hp | hp
      · exact .inl hp
      · obtain rfl := List.mem_singleton.mp hp
        exact .inr (hmoves.grows.created hcr)
    · exact fun d r hr => .inl hr
  · exact ht

/-- The body of the loop over the output queue makes moves only. -/
theorem outBody_moves (hf : Fine cfg sc.strict s) (hcr : Created (books s) r) (accept : ReqId → Bool) :
    Ensures (Mem.outBody cfg accept d r s) fun p => MemMoves cfg sc s p.1 := by
  unfold Mem.outBody
  dsimp only
  split
  · exact Ensures.of_some .refl
  · split
    · split
      · exact Ensures.of_some (sendPacket_moves hf hcr accept _ _)
      · exact Ensures.of_some (sendPacket_moves hf hcr accept _ _)
      · exact Ensures.of_some (sendPacket_moves hf hcr accept _ _)
      · exact Ensures.of_none
    · exact Ensures.of_none

/-- The loop over the output queue makes moves only. -/
theorem processOutQueue_moves (hf : Fine cfg sc.strict s) (accept : ReqId → Bool) :
    Ensures (Mem.processOutQueue cfg accept d s) fun s' => MemMoves cfg sc s s' := by
  have hcr (r : ReqId) (h : r ∈ s.entries ⟨d, .outQueue⟩) : Created (books s) r :=
    hf.kinds.lists (.queue ⟨d, .outQueue⟩) r h
  unfold Mem.processOutQueue
  refine serve_ensures (I := fun t => MemMoves cfg sc s t) .refl ?_ ?_
  · intro r hmem t ht
    refine MemMoves.andThen ht ?_
    exact outBody_moves (MemMoves.fine ht hf) (ht.grows.created (hcr r hmem)) accept
  · intro r _ t ht
    apply Ensures.of_some
    refine (ht.trans ?_).trans (MemMove.pop _ r).single
    apply tag_moves
    · constructor <;> rfl
    · exact id

/-! ## The network side and the clock -/

/-- A round of receiving makes moves only. -/
theorem receiveRound_moves (hf : Fine cfg sc.strict s) (hin : sc.queue ⟨d, .inQueue⟩)
    (hfill : sc.queue ⟨d, .fillQueue⟩) : MemMoves cfg sc s (Mem.receiveRound cfg d s) := by
  unfold Mem.receiveRound
  split
  · exact .refl
  · rename_i r rest hrx
    have hcr : Created (books s) r := hf.kinds.lists (.rx d) r (by simp [books, held, hrx])
    extract_lets t popRx
    have ht : MemMoves cfg sc s t := by
      apply tag_moves
      · constructor <;> rfl
      · simp
    have hcrt := ht.grows.created hcr
    -- the packet leaves the buffer only after it was taken
    have hpop (u : Mem) (hu : MemMoves cfg sc s u) (heq : u.rx d = r :: rest) :
        MemMoves cfg sc s (popRx u) := by
      refine hu.trans (carry_moves (MemMoves.fine hu hf) (fun p hp => .inl hp) ?_)
      intro e x hx
      by_cases he : e = d
      · subst he
        rw [Function.update_self] at hx
        refine .inl ?_
        rw [heq]
        exact List.mem_cons_of_mem r hx
      · rw [Function.update_of_ne he] at hx
        exact .inl hx
    have hfilled : MemMoves cfg sc s (t.fill cfg d r).1 := ht.trans (fill_moves hfill hcrt)
    have hinserted : MemMoves cfg sc s (t.insert cfg d r).1 :=
      ht.trans (insert_moves (MemMoves.fine ht hf) hin hcrt)
    have hrxfill : (t.fill cfg d r).1.rx d = r :: rest := by
      rw [← hrx]
      dsimp only [Mem.fill, Mem.push]
      split <;> split <;> rfl
    have hrxins : (t.insert cfg d r).1.rx d = r :: rest := by
      rw [← hrx]
      dsimp only [Mem.insert, Mem.push]
      split <;> split <;> rfl
    split
    · split
      · exact hpop _ hfilled hrxfill
      · exact hfilled
    · split
      · exact hpop _ hfilled hrxfill
      · exact hfilled
    · split
      · exact hpop _ hinserted hrxins
      · exact hinserted.trans (note_moves trivial)
    · split
      · exact hpop _ hinserted hrxins
      · exact hinserted.trans (note_moves trivial)

/-- Receiving packets makes moves only. -/
theorem receivePacket_moves (hf : Fine cfg sc.strict s) (hin : sc.queue ⟨d, .inQueue⟩)
    (hfill : sc.queue ⟨d, .fillQueue⟩) : MemMoves cfg sc s (Mem.receivePacket cfg d s) := by
  unfold Mem.receivePacket
  split
  · split
    · have hone := receiveRound_moves hf hin hfill
      exact hone.trans (receiveRound_moves (MemMoves.fine hone hf) hin hfill)
    · exact receiveRound_moves hf hin hfill
  · exact .refl

/-- The loop over the retry queue makes moves only. -/
theorem retryLoop_moves (xs : List ReqId) (hin : sc.queue ⟨d, .inQueue⟩)
    (hxs : ∀ r ∈ xs, Created (books s) r) (kept : List ReqId)
    (hkept : ∀ r ∈ kept, Created (books s) r) :
    MemMoves cfg sc s (Mem.retryLoop cfg d xs s kept) := by
  induction xs generalizing s kept with
  | nil => exact (MemMove.retry d kept hkept).single
  | cons r xs ih =>
      unfold Mem.retryLoop
      have hpush : MemMoves cfg sc s (s.push cfg ⟨d, .inQueue⟩ r).1 :=
        push_moves hin (hxs r List.mem_cons_self)
      dsimp only
      split
      · refine hpush.trans (ih ?_ kept ?_)
        · exact fun x hx => hpush.grows.created (hxs x (List.mem_cons_of_mem r hx))
        · exact fun x hx => hpush.grows.created (hkept x hx)
      · apply ih
        · exact fun x hx => hxs x (List.mem_cons_of_mem r hx)
        · intro x hx
          rcases List.mem_append.mp hx with hx | hx
          · exact hkept x hx
          · obtain rfl := List.mem_singleton.mp hx
            exact hxs x List.mem_cons_self

/-- The clock of a level makes moves only. -/
theorem tickDcu_moves : MemMoves cfg sc s (Mem.tickDcu d s) :=
  level_moves rfl rfl rfl

end MacSim.Analysis
