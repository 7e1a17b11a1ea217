import MacSim.Analysis.MergeTrees
import MacSim.Model.Constructed

/-!
# Every request of a merge tree is completed once

A call of a completion function on a request with merged requests leaves every request of the
tree in one of three conditions: it still waits in the tree, it was completed and not freed,
or it was completed and freed and not touched again.  Only the request the function was
called for can be left completed and not freed, and that is when the call succeeds.

So when a completion is repeated until it succeeds, whatever the rest of the simulator does in
between, and the request is freed then, every request of the tree was completed once and freed
once.
-/

set_option autoImplicit false

namespace MacSim.Analysis

open MacSim.Model MacSim.Computation

/-! ## Fates of requests -/

section

variable {due : ℕ} {c : ReqId} {evs new old : List Event}

/-- An event of a request that no event is about has not happened. -/
theorem count_eq_zero_of_subject {e : Event} (h : ∀ x ∈ evs, subject x ≠ subject e) :
    evs.count e = 0 :=
  List.count_eq_zero_of_not_mem fun hmem => h e hmem rfl

/-- Events about other requests, later and earlier. -/
theorem Once.frame (h : Once due c evs) (hnew : ∀ e ∈ new, subject e ≠ c)
    (hold : ∀ e ∈ old, subject e ≠ c) : Once due c (new ++ (evs ++ old)) := by
  obtain ⟨hcount, new', old', rfl, hnew', hold'⟩ := h
  refine ⟨?_, new ++ new', old' ++ old, by simp, ?_, ?_⟩
  · rw [List.count_append, List.count_append, hcount, count_eq_zero_of_subject hnew,
      count_eq_zero_of_subject hold]
    omega
  · intro e he
    rcases List.mem_append.mp he with he | he
    · exact hnew e he
    · exact hnew' e he
  · intro hmem
    rcases List.mem_append.mp hmem with hmem | hmem
    · exact hold' hmem
    · exact hold _ hmem rfl

/-- More events about other requests change no fate. -/
theorem Fate.frame {left left' : Forest ReqId} {done done' : List ReqId} {before after : MemReq}
    (h : Fate due left done evs c before after) (hnew : ∀ e ∈ new, subject e ≠ c)
    (hold : ∀ e ∈ old, subject e ≠ c) (hleft : c ∈ left'.nodes ↔ c ∈ left.nodes)
    (hdone : c ∈ done' ↔ c ∈ done) :
    Fate due left' done' (new ++ (evs ++ old)) c before after := by
  cases h with
  | waits hc hev hreq =>
      refine .waits (hleft.mpr hc) (fun e he hsub => ?_) hreq
      rcases List.mem_append.mp he with he | he
      · exact absurd hsub (hnew e he)
      · rcases List.mem_append.mp he with he | he
        · exact hev e he hsub
        · exact absurd hsub (hold e he)
  | completed hc hdue hfreed hreq =>
      refine .completed (hdone.mpr hc) ?_ (fun hmem => ?_) hreq
      · rw [List.count_append, List.count_append, hdue, count_eq_zero_of_subject hnew,
          count_eq_zero_of_subject hold]
        omega
      · rcases List.mem_append.mp hmem with hmem | hmem
        · exact hnew _ hmem rfl
        · rcases List.mem_append.mp hmem with hmem | hmem
          · exact hfreed hmem
          · exact hold _ hmem rfl
  | freed hl hd honce hreq =>
      exact .freed (fun h => hl (hleft.mp h)) (fun h => hd (hdone.mp h)) (honce.frame hnew hold)
        hreq

end

section

variable {cfg : MemConfig} {s t u : Mem} {F G left left' : Forest ReqId}
  {done done' : List ReqId} {evs evs' : List Event}

/-- The requests that are done are requests of the forest. -/
theorem Served.done_mem_nodes (h : Served cfg F s t left done evs) {c : ReqId} (hc : c ∈ done) :
    c ∈ F.nodes :=
  Forest.mem_nodes_of_mem_roots (h.done_sublist.subset hc)

/-- Completed requests have nothing merged any more. -/
theorem Served.done_req (h : Served cfg F s t left done evs) {c : ReqId} (hc : c ∈ done) :
    t.req c = { s.req c with merge := [] } := by
  cases h.fate c (h.done_mem_nodes hc) with
  | waits hl => exact absurd hl (h.done_left c hc)
  | completed _ _ _ hreq => exact hreq
  | freed _ hd => exact absurd hc hd

/-- A request outside the forest is not changed. -/
theorem Served.outside (h : Served cfg F s t left done evs) {c : ReqId}
    (hcr : Created (books s) c) (hc : c ∉ F.nodes) : t.req c = s.req c := by
  refine h.untouched c hcr fun e he heq => hc ?_
  rw [← heq]
  exact h.subjects e he

/-- One forest after the other. -/
theorem Served.append (h : Served cfg F s t left done evs)
    (h' : Served cfg G t u left' done' evs') (hF : MergeForest cfg s F)
    (hG : MergeForest cfg s G) (hdisj : ∀ c ∈ F.nodes, c ∉ G.nodes) :
    Served cfg (F.append G) s u (left.append left') (done ++ done') (evs' ++ evs) := by
  have hevs {c : ReqId} (hc : c ∈ G.nodes) : ∀ e ∈ evs, subject e ≠ c := by
    rintro e he rfl
    exact hdisj _ (h.subjects e he) hc
  have hevs' {c : ReqId} (hc : c ∈ F.nodes) : ∀ e ∈ evs', subject e ≠ c := by
    rintro e he rfl
    exact hdisj _ hc (h'.subjects e he)
  have hreq {c : ReqId} (hc : c ∈ F.nodes) : u.req c = t.req c :=
    h'.untouched c (h.adds.created (hF.constructed c hc).created) (hevs' hc)
  have hleft {c : ReqId} (hc : c ∈ G.nodes) : c ∉ left.nodes ∧ c ∉ done :=
    ⟨fun hmem => hdisj c (h.left_sublist.subset hmem) hc,
      fun hmem => hdisj c (h.done_mem_nodes hmem) hc⟩
  have hleft' {c : ReqId} (hc : c ∈ F.nodes) : c ∉ left'.nodes ∧ c ∉ done' :=
    ⟨fun hmem => hdisj c hc (h'.left_sublist.subset hmem),
      fun hmem => hdisj c hc (h'.done_mem_nodes hmem)⟩
  have hreq' {c : ReqId} (hc : c ∈ G.nodes) : t.req c = s.req c :=
    h.untouched c (hG.constructed c hc).created (hevs hc)
  refine ⟨?_, ?_, ?_, ?_, ?_, ?_, ?_, ?_, ?_⟩
  · refine h.adds.trans h'.adds fun c hc => ?_
    have hmem : c ∈ G.nodes := h'.subjects _ hc
    rw [hreq' hmem]
  · intro e he
    rw [Forest.nodes_append]
    rcases List.mem_append.mp he with he | he
    · exact List.mem_append_right _ (h'.subjects e he)
    · exact List.mem_append_left _ (h.subjects e he)
  · intro c hcr hc
    have hone := h.untouched c hcr fun e he => hc e (List.mem_append_right _ he)
    rw [← hone]
    exact h'.untouched c (h.adds.created hcr) fun e he => hc e (List.mem_append_left _ he)
  · intro c hc
    rw [Forest.nodes_append] at hc
    rcases List.mem_append.mp hc with hc | hc
    · have hfate : Fate _ (left.append left') (done ++ done') (evs' ++ (evs ++ [])) c (s.req c)
          (t.req c) := (h.fate c hc).frame (hevs' hc) (by simp) (by simp [(hleft' hc).1])
        (by simp [(hleft' hc).2])
      rw [List.append_nil] at hfate
      rw [hreq hc]
      exact hfate
    · have hfate : Fate _ (left.append left') (done ++ done') ([] ++ (evs' ++ evs)) c (t.req c)
          (u.req c) := (h'.fate c hc).frame (by simp) (hevs hc) (by simp [(hleft hc).1])
        (by simp [(hleft hc).2])
      rw [hreq' hc] at hfate
      exact hfate
  · rw [Forest.nodes_append, Forest.nodes_append]
    exact h.left_sublist.append h'.left_sublist
  · rw [Forest.roots_append, Forest.roots_append, List.filter_append, h.left_roots, h'.left_roots]
    congr 1
    · apply List.filter_congr
      intro c hc
      simp [(hleft' (Forest.mem_nodes_of_mem_roots hc)).2]
    · apply List.filter_congr
      intro c hc
      simp [(hleft (Forest.mem_nodes_of_mem_roots hc)).2]
  · refine Forest.Spans.append (h.left_spans.congr fun c hc => ?_) h'.left_spans
    rw [hreq (h.left_sublist.subset hc)]
  · rw [Forest.roots_append]
    exact h.done_sublist.append h'.done_sublist
  · intro c hc hmem
    rw [Forest.nodes_append] at hmem
    rcases List.mem_append.mp hc with hc | hc
    · rcases List.mem_append.mp hmem with hmem | hmem
      · exact h.done_left c hc hmem
      · exact (hleft' (h.done_mem_nodes hc)).1 hmem
    · rcases List.mem_append.mp hmem with hmem | hmem
      · exact (hleft (h'.done_mem_nodes hc)).1 hmem
      · exact h'.done_left c hc hmem

/-- The first tree of a forest: what is below its root was served, the completed requests
were detached, and the root served itself. -/
theorem Served.root {r : ReqId} {below rest : Forest ReqId} {s₁ s₂ : Mem} {ok : Bool}
    {own : List Event} (hF : MergeForest cfg s (.cons r below rest))
    (h : Served cfg below (s.record (.called r)) s₁ left done evs)
    (hown : OwnPart cfg r left.isNil (done.foldl (detach r) s₁) s₂ ok own) :
    Served cfg (.cons r below .nil) s s₂ (if ok then .nil else .cons r left .nil)
      (if ok then [r] else []) (own ++ (done.reverse.map .freed ++ (evs ++ [.called r]))) := by
  have hr : Created (books s) r := (hF.constructed r List.mem_cons_self).created
  have hbelow {c : ReqId} (hc : c ∈ below.nodes) : Created (books s) c :=
    (hF.under.constructed c hc).created
  have hr_below := hF.root_not_below
  have hmem_below {c : ReqId} (hc : c ∈ below.nodes) :
      c ∈ (Forest.cons r below .nil).nodes := List.mem_cons_of_mem r (List.mem_append_left _ hc)
  have hne {c : ReqId} (hc : c ∈ below.nodes) : c ≠ r := by
    rintro rfl
    exact hr_below hc
  have hr_done : r ∉ done := fun hmem => hr_below (h.done_mem_nodes hmem)
  have hnodup : done.Nodup := h.done_sublist.nodup (Forest.nodup_roots hF.under.nodup)
  have hmerge : ∀ c ∈ done, (s₁.req c).merge = [] := by
    intro c hc
    rw [h.done_req hc]
  have hadds : Adds cfg s s₁ (evs ++ [.called r]) :=
    Adds.trans (t := s.record (.called r)) (Adds.of_quiet rfl rfl le_rfl rfl rfl (by simp)) h.adds
      fun _ _ => rfl
  have hadds' := hadds.trans (detachAll_adds (r := r) cfg done) (by simp)
  -- the requests after the completed ones were detached
  have hreq {c : ReqId} (hc : Created (books s) c) :
      s₂.req c = if c ∈ done then cleared (s₁.req c)
        else if c = r then { s.req r with merge := left.roots } else s₁.req c := by
    have hs₁ : s₁.req r = s.req r := h.outside hr hr_below
    have hroots : (s.req r).merge.filter (· ∉ done) = left.roots := by
      rw [h.left_roots, show (s.req r).merge = below.roots from hF.spans.1]
    rw [hown.req c (hadds'.created hc), detachAll_req hr_done hnodup hmerge, hs₁, hroots]
  have hreq_root : s₂.req r = { s.req r with merge := left.roots } := by
    rw [hreq hr, if_neg hr_done, if_pos rfl]
  have hreq_below {c : ReqId} (hc : c ∈ below.nodes) (hd : c ∉ done) : s₂.req c = s₁.req c := by
    rw [hreq (hbelow hc), if_neg hd, if_neg (hne hc)]
  have hown_below {c : ReqId} (hc : c ∈ below.nodes) : ∀ e ∈ own, subject e ≠ c := by
    intro e he heq
    rw [hown.subjects e he] at heq
    exact hne hc heq.symm
  have hfreed_other {c : ReqId} (hc : c ∉ done) :
      ∀ e ∈ done.reverse.map Event.freed, subject e ≠ c := by
    intro e he heq
    obtain ⟨x, hx, rfl⟩ := List.mem_map.mp he
    obtain rfl : x = c := heq
    exact hc (List.mem_reverse.mp hx)
  have hevs_root : ∀ e ∈ evs, subject e ≠ r := by
    rintro e he rfl
    exact hr_below (h.subjects e he)
  have htail {e : Event} (hsub : subject e = r) (hcall : e ≠ .called r) :
      e ∉ done.reverse.map Event.freed ++ (evs ++ [.called r]) := by
    intro he
    rcases List.mem_append.mp he with he | he
    · exact hfreed_other hr_done e he hsub
    · rcases List.mem_append.mp he with he | he
      · exact hevs_root e he hsub
      · exact hcall (List.mem_singleton.mp he)
  have hnil (hok : ok = true) : left = .nil := Forest.isNil_iff.mp (hown.clear hok)
  refine ⟨?_, ?_, ?_, ?_, ?_, ?_, ?_, ?_, ?_⟩
  · refine hadds'.trans hown.adds fun c hc => ?_
    obtain rfl : c = r := hown.subjects _ hc
    rw [← hown.req c (hadds'.created hr), hreq_root]
    rfl
  · intro e he
    rcases List.mem_append.mp he with he | he
    · rw [hown.subjects e he]
      exact List.mem_cons_self
    · rcases List.mem_append.mp he with he | he
      · obtain ⟨x, hx, rfl⟩ := List.mem_map.mp he
        exact hmem_below (h.done_mem_nodes (List.mem_reverse.mp hx))
      · rcases List.mem_append.mp he with he | he
        · exact hmem_below (h.subjects e he)
        · obtain rfl := List.mem_singleton.mp he
          exact List.mem_cons_self
  · intro c hcr hc
    have hcalled : c ≠ r := fun heq => hc (.called r) (by simp) heq.symm
    have hdone : c ∉ done := fun hd => hc (.freed c) (by simp [hd]) rfl
    rw [hreq hcr, if_neg hdone, if_neg hcalled]
    exact h.untouched c hcr fun e he => hc e (by simp [he])
  · intro c hc
    rw [Forest.nodes_cons, Forest.nodes_nil, List.append_nil] at hc
    rcases List.mem_cons.mp hc with rfl | hc
    · cases ok with
      | false =>
          refine .waits (by simp) (fun e he hsub => ?_) ⟨_, hreq_root⟩
          rw [hown.refused rfl, List.nil_append] at he
          rcases List.mem_append.mp he with he | he
          · exact absurd hsub (hfreed_other hr_done e he)
          · rcases List.mem_append.mp he with he | he
            · exact absurd hsub (hevs_root e he)
            · exact List.mem_singleton.mp he
      | true =>
          refine .completed (by simp) ?_ ?_ ?_
          · have hdue := hown.due rfl
            rw [← hown.req c (hadds'.created hr), hreq_root] at hdue
            rw [List.count_append, hdue, List.count_eq_zero_of_not_mem (htail rfl (by simp))]
            rfl
          · intro hmem
            rcases List.mem_append.mp hmem with hmem | hmem
            · exact hown.freed hmem
            · exact htail rfl (by simp) hmem
          · rw [hreq_root, hnil rfl]
            rfl
    · have hcalled : ∀ e ∈ [Event.called r], subject e ≠ c := by
        intro e he heq
        obtain rfl := List.mem_singleton.mp he
        exact hne hc heq.symm
      by_cases hd : c ∈ done
      · obtain ⟨hcount, hfreed⟩ : evs.count (.completed c) = dueEffects cfg (s.req c) ∧
            .freed c ∉ evs := by
          cases h.fate c hc with
          | waits hl => exact absurd hl (h.done_left c hd)
          | completed _ hdue hfreed _ => exact ⟨hdue, hfreed⟩
          | freed _ hnd => exact absurd hd hnd
        -- its one place in the list of the detached requests
        obtain ⟨later, sooner, hsplit⟩ := List.append_of_mem (List.mem_reverse.mpr hd)
        have hnodup' : (later ++ c :: sooner).Nodup := by
          rw [← hsplit]
          exact List.nodup_reverse.mpr hnodup
        obtain ⟨-, hsooner, hlater⟩ := List.nodup_append.mp hnodup'
        refine .freed ?_ ?_ ⟨?_, own ++ later.map .freed,
          sooner.map .freed ++ (evs ++ [.called r]), ?_, ?_, ?_⟩ ?_
        · cases ok with
          | true => simp
          | false => simp [hne hc, h.done_left c hd]
        · cases ok <;> simp [hne hc]
        · rw [List.count_append, List.count_append, List.count_append,
            count_eq_zero_of_subject (e := .completed c) (hown_below hc),
            count_eq_zero_of_subject (e := .completed c) hcalled, hcount,
            List.count_eq_zero_of_not_mem (by simp)]
          omega
        · simp [hsplit]
        · intro e he heq
          rcases List.mem_append.mp he with he | he
          · exact hown_below hc e he heq
          · obtain ⟨x, hx, rfl⟩ := List.mem_map.mp he
            exact hlater x hx c List.mem_cons_self heq
        · have hnot : c ∉ sooner := (List.nodup_cons.mp hsooner).1
          simpa [hnot] using hfreed
        · rw [hreq (hbelow hc), if_pos hd, h.done_req hd]
          rfl
      · -- neither detached nor the root: as the part below left it
        have hlater : ∀ e ∈ own ++ done.reverse.map Event.freed, subject e ≠ c := by
          intro e he
          rcases List.mem_append.mp he with he | he
          · exact hown_below hc e he
          · exact hfreed_other hd e he
        have hleft : c ∈ (if ok = true then Forest.nil else .cons r left .nil).nodes ↔
            c ∈ left.nodes := by
          cases ok with
          | true => simp [hnil rfl]
          | false => simp [hne hc]
        have hdone : c ∈ (if ok = true then [r] else []) ↔ c ∈ done := by
          cases ok <;> simp [hne hc, hd]
        have hfate := (h.fate c hc).frame hlater hcalled hleft hdone
        rw [List.append_assoc] at hfate
        rw [hreq_below hc hd]
        exact hfate
  · split
    · simp
    · simpa using h.left_sublist
  · split <;> simp
  · split
    · trivial
    · refine ⟨?_, h.left_spans.congr fun c hc => ?_, trivial⟩
      · dsimp only
        rw [hreq_root]
      · rw [hreq_below (h.left_sublist.subset hc) fun hd => h.done_left c hd hc]
  · split <;> simp
  · split <;> simp

/-- Requests of a forest that nothing touched still form it. -/
theorem MergeForest.after (hG : MergeForest cfg s G) (h : Served cfg F s t left done evs)
    (hdisj : ∀ c ∈ G.nodes, c ∉ F.nodes) : MergeForest cfg t G := by
  have hreq (c : ReqId) (hc : c ∈ G.nodes) : t.req c = s.req c :=
    h.outside (hG.constructed c hc).created (hdisj c hc)
  apply hG.congr
  · exact fun c hc => by rw [hreq c hc]
  · exact fun c hc => by rw [hreq c hc]
  · exact h.adds.nextPool.ge
  · exact h.adds.nextWb

/-- The request itself keeps its completion function while the requests below it are served
and detached. -/
theorem Served.root_doneFunc {r : ReqId} {below rest : Forest ReqId} {s₁ : Mem}
    (hF : MergeForest cfg s (.cons r below rest))
    (h : Served cfg below (s.record (.called r)) s₁ left done evs) :
    ((done.foldl (detach r) s₁).req r).doneFunc = (s.req r).doneFunc := by
  have hr : Created (books s) r := (hF.constructed r List.mem_cons_self).created
  have hr_done : r ∉ done := fun hmem => hF.root_not_below (h.done_mem_nodes hmem)
  have hs₁ : s₁.req r = s.req r := h.outside hr hF.root_not_below
  rw [detachAll_req hr_done (h.done_sublist.nodup (Forest.nodup_roots hF.under.nodup)),
    if_neg hr_done, if_pos rfl, hs₁]
  intro c hc
  rw [h.done_req hc]

/-- The first tree of a forest has been served: what is known then, and that the other trees are
as they were. -/
theorem Served.first {r : ReqId} {below rest : Forest ReqId} {f : DoneFunc} {s₁ : Mem}
    {q : Mem × Bool} (hF : MergeForest cfg s (.cons r below rest))
    (hf : (s.req r).doneFunc = some f)
    (h : Served cfg below (s.record (.called r)) s₁ left done evs)
    (hq : serveOwn cfg f r left.isNil (done.foldl (detach r) s₁) = some q) :
    (∃ evs', Served cfg (.cons r below .nil) s q.1 (if q.2 then .nil else .cons r left .nil)
      (if q.2 then [r] else []) evs') ∧ MergeForest cfg q.1 rest := by
  have hr : Created (books s) r := (hF.constructed r List.mem_cons_self).created
  have hadds := h.adds.trans (detachAll_adds (r := r) cfg done) (by simp)
  have hdone := h.root_doneFunc hF
  rw [hf] at hdone
  obtain ⟨own, hown⟩ := serveOwn_ownPart hdone (hadds.created hr) q hq
  have hroot := h.root hF hown
  refine ⟨⟨_, hroot⟩, hF.beside.after hroot fun c hc hmem => ?_⟩
  exact hF.first_disjoint hmem hc

/-- By induction on the forest: what is below a root, the root, and the other trees. -/
theorem completeForest_served (hF : MergeForest cfg s F) :
    Ensures (completeForest cfg F s) fun p => ∃ evs, Served cfg F s p.1 p.2.1 p.2.2 evs := by
  induction F generalizing s with
  | nil =>
      refine Ensures.of_some ⟨[], ⟨Adds.of_quiet rfl rfl le_rfl rfl rfl (by simp), ?_, ?_, ?_, ?_,
        ?_, ?_, ?_, ?_⟩⟩
      all_goals simp [Forest.Spans]
  | cons r below rest ihbelow ihrest =>
      unfold completeForest
      refine Ensures.bind (P := fun f => (s.req r).doneFunc = some f) (fun f hf => hf) ?_
      intro f hf
      have hbelow : MergeForest cfg (s.record (.called r)) below :=
        hF.under.congr (fun _ _ => rfl) (fun _ _ => rfl) le_rfl le_rfl
      refine Ensures.bind (ihbelow hbelow) ?_
      rintro ⟨s₁, left, done⟩ ⟨evs, hserved⟩
      intro q hq
      obtain ⟨q', hq', hq⟩ := Option.bind_eq_some_iff.mp hq
      obtain ⟨⟨evs', hroot⟩, hrest⟩ := hserved.first hF hf hq'
      obtain ⟨p, hp, rfl⟩ := Option.map_eq_some_iff.mp hq
      obtain ⟨evs'', hserved'⟩ := ihrest hrest p hp
      have happend := hroot.append hserved' hF.tree hF.beside fun c hc => hF.first_disjoint hc
      obtain ⟨s₂, ok⟩ := q'
      cases ok with
      | true => exact ⟨_, happend⟩
      | false => exact ⟨_, happend⟩

/-! ## The wrappers do this -/

/-- One call of a wrapper, when the loop over the merged requests does what it should. -/
theorem wrapper_succ_eq {r : ReqId} {below rest : Forest ReqId} {f : DoneFunc} {n : ℕ}
    (hF : MergeForest cfg s (.cons r below rest)) (hf : (s.req r).doneFunc = some f)
    (hloop : Mem.serveMerged (Mem.wrapper cfg n) below.roots (s.record (.called r)) [] true =
      (completeForest cfg below (s.record (.called r))).map fun p => (p.1, p.2.2, p.2.1.isNil)) :
    Mem.wrapper cfg (n + 1) f r s =
      (completeForest cfg below (s.record (.called r))).bind fun p =>
        serveOwn cfg f r p.2.1.isNil (p.2.2.foldl (detach r) p.1) := by
  have hmerge : ((s.record (.called r)).req r).merge = below.roots := hF.spans.1
  have hbelow : MergeForest cfg (s.record (.called r)) below :=
    hF.under.congr (fun _ _ => rfl) (fun _ _ => rfl) le_rfl le_rfl
  have hfill : IsFill (some f) := hf ▸ hF.fills r List.mem_cons_self
  have hmerged : Mem.completeMerged (Mem.wrapper cfg n) r (s.record (.called r)) =
      (completeForest cfg below (s.record (.called r))).map fun p =>
        (p.2.2.foldl (detach r) p.1, p.2.1.isNil) := by
    unfold Mem.completeMerged
    rw [hmerge, hloop]
    cases hcall : completeForest cfg below (s.record (.called r)) with
    | none => rfl
    | some p =>
        obtain ⟨evs, hserved⟩ := completeForest_served hbelow p hcall
        have hr_done : r ∉ p.2.2 := fun hmem => hF.root_not_below (hserved.done_mem_nodes hmem)
        simp only [Option.map_some, Option.bind_some]
        rw [releaseMerged_eq p.2.2 hr_done
          (hserved.done_sublist.nodup (Forest.nodup_roots hF.under.nodup))]
        · rfl
        · intro c hc
          rw [hserved.done_req hc]
  -- the calls on the merged requests are those of `wrapper` again
  have hwrapper : Mem.wrapperOr Mem.assertionFails cfg n = Mem.wrapper cfg n := rfl
  have hown (t : Mem) : t.doneOr Mem.assertionFails cfg r = t.done cfg r := rfl
  unfold Mem.wrapper Mem.wrapperOr
  simp only [hwrapper, hown]
  cases hcall : completeForest cfg below (s.record (.called r)) with
  | none => cases f <;> first | exact hfill.elim | simp [hmerged, hcall]
  | some p =>
      obtain ⟨evs, hserved⟩ := completeForest_served hbelow p hcall
      have hdone := hserved.root_doneFunc hF
      rw [hf] at hdone
      cases f with
      | dcacheFillLine =>
          cases hnil : p.2.1.isNil <;> simp [hmerged, hcall, serveOwn, hnil, hdone]
      | icacheFillLine => simp [hmerged, hcall, serveOwn]
      | readonlyCacheFillLine =>
          cases hnil : p.2.1.isNil <;> simp [hmerged, hcall, serveOwn, hnil]
      | dcacheWriteAck => exact hfill.elim

/-- The loop of the wrappers over a merge list, by induction on the forest below it. -/
theorem serveMerged_eq {n : ℕ} (hF : MergeForest cfg s F) (hn : F.height ≤ n)
    (doneList : List ReqId) (result : Bool) :
    Mem.serveMerged (Mem.wrapper cfg n) F.roots s doneList result =
      (completeForest cfg F s).map fun p =>
        (p.1, doneList ++ p.2.2, result && p.2.1.isNil) := by
  induction F generalizing s n doneList result with
  | nil => simp [Mem.serveMerged, completeForest, Forest.isNil]
  | cons r below rest ihbelow ihrest =>
      obtain ⟨k, rfl⟩ : ∃ k, n = k + 1 := by
        refine ⟨n - 1, ?_⟩
        simp only [Forest.height] at hn
        omega
      simp only [Forest.height] at hn
      obtain ⟨f, hf⟩ : ∃ f, (s.req r).doneFunc = some f := by
        have hfill := hF.fills r List.mem_cons_self
        cases hdone : (s.req r).doneFunc with
        | none =>
            rw [hdone] at hfill
            exact hfill.elim
        | some f => exact ⟨f, rfl⟩
      have hbelow : MergeForest cfg (s.record (.called r)) below :=
        hF.under.congr (fun _ _ => rfl) (fun _ _ => rfl) le_rfl le_rfl
      have hloop := ihbelow hbelow (n := k) (by omega) [] true
      simp only [List.nil_append, Bool.true_and] at hloop
      have hcallback : Mem.callback (Mem.wrapper cfg (k + 1)) r s =
          (completeForest cfg below (s.record (.called r))).bind fun p =>
            serveOwn cfg f r p.2.1.isNil (p.2.2.foldl (detach r) p.1) := by
        unfold Mem.callback
        rw [hf]
        exact wrapper_succ_eq hF hf hloop
      rw [Forest.roots_cons, Mem.serveMerged, completeForest, hcallback, hf]
      cases hcall : completeForest cfg below (s.record (.called r)) with
      | none => rfl
      | some p =>
          obtain ⟨evs, hserved⟩ := completeForest_served hbelow p hcall
          simp only [Option.bind_some]
          cases hown : serveOwn cfg f r p.2.1.isNil (p.2.2.foldl (detach r) p.1) with
          | none => rfl
          | some q =>
              have hrest := (hserved.first hF hf hown).2
              obtain ⟨s₂, ok⟩ := q
              have hnext := ihrest hrest (n := k + 1) (by omega)
              -- a refused root stays in the forest, so the result is false from then on
              cases ok with
              | true =>
                  simp only [Option.bind_some, if_true, hnext, Option.map_map]
                  congr 1
                  funext t
                  simp
              | false =>
                  simp only [Option.bind_some, Bool.false_eq_true, if_false, hnext, Option.map_map]
                  congr 1
                  funext t
                  simp [Forest.isNil]

/-- The completion of a request does what the program over its tree does. -/
theorem callback_eq {r : ReqId} {below : Forest ReqId}
    (hF : MergeForest cfg s (.cons r below .nil)) :
    Mem.callback (Mem.wrapper cfg (s.fuel cfg)) r s =
      (completeForest cfg (.cons r below .nil) s).map fun p => (p.1, p.2.1.isNil) := by
  have hloop := serveMerged_eq hF hF.height_lt_fuel.le [] true
  simp only [Forest.roots_cons, Forest.roots_nil, Mem.serveMerged, List.nil_append,
    Bool.true_and] at hloop
  cases hcall : Mem.callback (Mem.wrapper cfg (s.fuel cfg)) r s with
  | none =>
      rw [hcall, Option.bind_none] at hloop
      rw [Option.map_eq_none_iff.mp hloop.symm]
      rfl
  | some q =>
      obtain ⟨s₁, ok⟩ := q
      rw [hcall, Option.bind_some] at hloop
      cases hforest : completeForest cfg (.cons r below .nil) s with
      | none => cases ok <;> simp [hforest] at hloop
      | some p => cases ok <;> simp_all

end

/-! ## Repeated calls -/

/-- The requests merged into a request, directly or not. -/
def Below (s : Mem) (r c : ReqId) : Prop :=
  Relation.ReflTransGen (fun p c => c ∈ (s.req p).merge) r c

/-- What the rest of the simulator may do to a request with merged requests between two calls:
it leaves the merge lists, the completion functions and the uops of the tree as they are. -/
structure Meanwhile (r : ReqId) (s s' : Mem) : Prop where
  merge : ∀ c, Below s r c → (s'.req c).merge = (s.req c).merge
  doneFunc : ∀ c, Below s r c → (s'.req c).doneFunc = (s.req c).doneFunc
  uop : ∀ c, Below s r c → (s'.req c).uop = (s.req c).uop
  nextPool : s.nextPool ≤ s'.nextPool
  nextWb : s.nextWb ≤ s'.nextWb

/-- Calls of the completion function of a request that were all refused, with whatever else
happened before and between them.  The calls are listed by the states around them, the newest
first. -/
inductive Refusals (cfg : MemConfig) (r : ReqId) : Mem → List (Mem × Mem) → Mem → Prop
  | start {s s' : Mem} (hmean : Meanwhile r s s') : Refusals cfg r s [] s'
  | call {s s₁ s₂ s' : Mem} {calls : List (Mem × Mem)} (h : Refusals cfg r s calls s₁)
      (hcall : Mem.callback (Mem.wrapper cfg (s₁.fuel cfg)) r s₁ = some (s₂, false))
      (hmean : Meanwhile r s₂ s') : Refusals cfg r s ((s₁, s₂) :: calls) s'

/-- The events that a call added to the log. -/
def newEvents (call : Mem × Mem) : List Event :=
  call.2.log.take (call.2.log.length - call.1.log.length)

/-- The events of several calls, the newest first. -/
def eventsOf (calls : List (Mem × Mem)) : List Event := calls.flatMap newEvents

/-- A call changes the uops by the completions it notes and by nothing else; it touches no
request that it has no event about, and leaves what it freed cleared. -/
structure Tidy (cfg : MemConfig) (call : Mem × Mem) : Prop where
  effects : call.2.uop =
    (replay (fun c => task cfg (call.1.req c)) (newEvents call) call.1).uop
  untouched : ∀ c, Created (books call.1) c → (∀ e ∈ newEvents call, subject e ≠ c) →
    call.2.req c = call.1.req c
  cleared : ∀ c, .freed c ∈ newEvents call → call.2.req c = cleared (call.1.req c)

/-- Some requests were completed by some calls: the completion of each took effect as often as
it is due, and each was freed once and left alone afterwards. -/
structure CompletedOnce (cfg : MemConfig) (s : Mem) (requests : List ReqId)
    (calls : List (Mem × Mem)) : Prop where
  once : ∀ c ∈ requests, Once (dueEffects cfg (s.req c)) c (eventsOf calls)
  tidy : ∀ call ∈ calls, Tidy cfg call

/-- How far a request has come. -/
inductive Progress (due : ℕ) (left : Forest ReqId) (done : List ReqId) (evs : List Event)
    (c : ReqId) : Prop
  | waits (hc : c ∈ left.nodes) (hev : ∀ e ∈ evs, subject e = c → e = .called c)
  | completed (hc : c ∈ done) (hdue : evs.count (.completed c) = due) (hfreed : .freed c ∉ evs)
  | freed (hleft : c ∉ left.nodes) (hdone : c ∉ done) (honce : Once due c evs)

section

variable {cfg : MemConfig} {s t u : Mem} {r : ReqId} {F left : Forest ReqId}
  {done : List ReqId} {evs : List Event}

/-- The new events are those in front of the old log. -/
theorem newEvents_eq (h : t.log = evs ++ s.log) : newEvents (s, t) = evs := by
  simp [newEvents, h]

/-- Every request of a forest is below a request that has the roots merged. -/
theorem below_of_spans (hF : F.Spans fun c => (s.req c).merge)
    (hroots : ∀ c ∈ F.roots, Below s r c) {c : ReqId} (hc : c ∈ F.nodes) : Below s r c := by
  induction F with
  | nil => cases hc
  | cons a below rest ihbelow ihrest =>
      have ha : Below s r a := hroots a List.mem_cons_self
      rcases List.mem_cons.mp hc with rfl | hc
      · exact ha
      · rcases List.mem_append.mp hc with hc | hc
        · refine ihbelow hF.2.1 (fun b hb => ha.tail ?_) hc
          rw [show (s.req a).merge = below.roots from hF.1]
          exact hb
        · exact ihrest hF.2.2 (fun b hb => hroots b (List.mem_cons_of_mem a hb)) hc

/-- All requests of a tree are below its root. -/
theorem MergeForest.below_root {below : Forest ReqId} (hF : MergeForest cfg s (.cons r below .nil))
    {c : ReqId} (hc : c ∈ (Forest.cons r below .nil).nodes) : Below s r c := by
  refine below_of_spans hF.spans (fun a ha => ?_) hc
  obtain rfl := List.mem_singleton.mp ha
  exact .refl

/-- The rest of the simulator leaves the tree as it is. -/
theorem MergeForest.meanwhile {below : Forest ReqId} (hF : MergeForest cfg s (.cons r below .nil))
    (hmean : Meanwhile r s t) : MergeForest cfg t (.cons r below .nil) :=
  hF.congr (fun c hc => hmean.merge c (hF.below_root hc))
    (fun c hc => hmean.doneFunc c (hF.below_root hc)) hmean.nextPool hmean.nextWb

/-- What a request owes depends on its completion function and its uop. -/
theorem dueEffects_congr {a b : MemReq} (hdone : a.doneFunc = b.doneFunc) (huop : a.uop = b.uop) :
    dueEffects cfg a = dueEffects cfg b := by
  unfold dueEffects task
  rw [hdone, huop]
  split <;> simp

/-- What is left of a forest is a forest. -/
theorem Served.mergeForest (hF : MergeForest cfg s F) (h : Served cfg F s t left done evs) :
    MergeForest cfg t left where
  spans := h.left_spans
  nodup := h.left_sublist.nodup hF.nodup
  fills c hc := by
    have hmem := h.left_sublist.subset hc
    cases h.fate c hmem with
    | waits _ _ hreq =>
        obtain ⟨m, hm⟩ := hreq
        rw [hm]
        exact hF.fills c hmem
    | completed hd => exact absurd hc (h.done_left c hd)
    | freed hl => exact absurd hc hl
  constructed c hc :=
    (hF.constructed c (h.left_sublist.subset hc)).mono h.adds.nextPool.ge h.adds.nextWb

/-- A single tree is completed, or its root is left. -/
theorem Served.single {below : Forest ReqId}
    (h : Served cfg (.cons r below .nil) s t left done evs) :
    (left = .nil ∧ done = [r]) ∨ ∃ left', left = .cons r left' .nil ∧ done = [] := by
  have hroots := h.left_roots
  have hdone : done = [] ∨ done = [r] := by
    have hsub := h.done_sublist
    rw [Forest.roots_cons, Forest.roots_nil] at hsub
    exact List.sublist_singleton.mp hsub
  rcases hdone with rfl | rfl
  · refine .inr ?_
    obtain ⟨left', rfl⟩ := Forest.eq_cons_nil (a := r) (by simpa using hroots)
    exact ⟨left', rfl, rfl⟩
  · refine .inl ⟨?_, rfl⟩
    cases left with
    | nil => rfl
    | cons a x y => simp at hroots

/-- A call that serves a forest is tidy. -/
theorem Served.tidy (h : Served cfg F s t left done evs) : Tidy cfg (s, t) := by
  have hevs := newEvents_eq h.adds.log
  refine ⟨?_, ?_, ?_⟩
  · rw [hevs]
    exact h.adds.uop
  · rw [hevs]
    exact h.untouched
  · rw [hevs]
    intro c hc
    cases h.fate c (h.subjects _ hc) with
    | waits _ hev => exact absurd (hev _ hc rfl) (by simp)
    | completed _ _ hfreed => exact absurd hc hfreed
    | freed _ _ _ hreq => exact hreq

/-- The end of `free_req`, when nothing is merged. -/
theorem clearReq_tidy (core : ℕ) (hmerge : (s.req r).merge = []) :
    Tidy cfg (s, s.clearReq core r) := by
  have hevs : newEvents (s, s.clearReq core r) = [.freed r] :=
    newEvents_eq (clearReq_log (c := r) core)
  refine ⟨?_, ?_, ?_⟩
  · rw [hevs, replay_of_no_completed (by simp)]
    dsimp only [Mem.clearReq]
    split <;> rfl
  · rw [hevs]
    intro c _ hc
    have hne : c ≠ r := fun heq => hc (.freed r) List.mem_cons_self heq.symm
    dsimp only
    rw [clearReq_req, if_neg fun h => hne h.1]
  · rw [hevs]
    intro c hc
    obtain rfl : c = r := Event.freed.inj (List.mem_singleton.mp hc)
    have hnil : { s.req c with merge := [] } = s.req c := by rw [← hmerge]
    dsimp only
    rw [clearReq_req, cleared, hnil]
    by_cases hwb : (s.req c).type = .wb <;> simp [hwb]

/-- One more call.  Before it, a request of the tree was only called. -/
theorem Progress.call {due : ℕ} {c : ReqId} {left' : Forest ReqId} {old : List Event}
    (h : Progress due F [] old c) (hserved : Served cfg F s t left' done evs)
    (hdue : c ∈ F.nodes → dueEffects cfg (s.req c) = due) :
    Progress due left' done (evs ++ old) c := by
  cases h with
  | waits hc hev =>
      have hcompleted : .completed c ∉ old := fun hmem => absurd (hev _ hmem rfl) (by simp)
      have hfreed : .freed c ∉ old := fun hmem => absurd (hev _ hmem rfl) (by simp)
      cases hserved.fate c hc with
      | waits hl hev' =>
          refine .waits hl fun e he hsub => ?_
          rcases List.mem_append.mp he with he | he
          · exact hev' e he hsub
          · exact hev e he hsub
      | completed hd hcount hnot =>
          refine .completed hd ?_ ?_
          · rw [List.count_append, hcount, List.count_eq_zero_of_not_mem hcompleted, hdue hc,
              add_zero]
          · simp [hnot, hfreed]
      | freed hl hd honce =>
          obtain ⟨hcount, new, old', rfl, hnew, hold'⟩ := honce
          refine .freed hl hd ⟨?_, new, old' ++ old, by simp, hnew, by simp [hold', hfreed]⟩
          rw [List.count_append, hcount, List.count_eq_zero_of_not_mem hcompleted, hdue hc,
            add_zero]
  | completed hc => cases hc
  | freed hl _ honce =>
      have hnew : ∀ e ∈ evs, subject e ≠ c := by
        rintro e he rfl
        exact hl (hserved.subjects e he)
      have hframe : Once _ c (evs ++ (_ ++ [])) := honce.frame hnew (by simp)
      rw [List.append_nil] at hframe
      exact .freed (fun hmem => hl (hserved.left_sublist.subset hmem))
        (fun hmem => hl (hserved.done_mem_nodes hmem)) hframe

/-- What is known after some refused calls: what is left of the tree, and how far every request
of it has come. -/
structure Pending (cfg : MemConfig) (r : ReqId) (requests : List ReqId) (s₀ : Mem)
    (calls : List (Mem × Mem)) (s : Mem) (left : Forest ReqId) : Prop where
  forest : MergeForest cfg s (.cons r left .nil)
  progress : ∀ c ∈ requests,
    Progress (dueEffects cfg (s₀.req c)) (.cons r left .nil) [] (eventsOf calls) c
  due : ∀ c ∈ (Forest.cons r left .nil).nodes,
    dueEffects cfg (s.req c) = dueEffects cfg (s₀.req c)
  tidy : ∀ call ∈ calls, Tidy cfg call

/-- What is pending stays so while the rest of the simulator goes on. -/
theorem Pending.meanwhile {requests : List ReqId} {s₀ : Mem} {calls : List (Mem × Mem)}
    (h : Pending cfg r requests s₀ calls s left) (hmean : Meanwhile r s t) :
    Pending cfg r requests s₀ calls t left where
  forest := h.forest.meanwhile hmean
  progress := h.progress
  due c hc := by
    have hbelow := h.forest.below_root hc
    rw [dueEffects_congr (hmean.doneFunc c hbelow) (hmean.uop c hbelow)]
    exact h.due c hc
  tidy := h.tidy

/-- A call goes on with every request of the tree where it was. -/
theorem Pending.served {requests : List ReqId} {s₀ : Mem} {calls : List (Mem × Mem)}
    {left' : Forest ReqId} (h : Pending cfg r requests s₀ calls s left)
    (hserved : Served cfg (.cons r left .nil) s t left' done evs) {c : ReqId} (hc : c ∈ requests) :
    Progress (dueEffects cfg (s₀.req c)) left' done (eventsOf ((s, t) :: calls)) c := by
  have hevs : eventsOf ((s, t) :: calls) = evs ++ eventsOf calls := by
    rw [eventsOf, List.flatMap_cons, newEvents_eq hserved.adds.log]
    rfl
  rw [hevs]
  exact (h.progress c hc).call hserved (h.due c)

/-- After refused calls a part of the tree is pending. -/
theorem Refusals.pending {below : Forest ReqId} {s₀ : Mem} {calls : List (Mem × Mem)}
    (hF : MergeForest cfg s₀ (.cons r below .nil)) (h : Refusals cfg r s₀ calls s) :
    ∃ left, Pending cfg r (Forest.cons r below .nil).nodes s₀ calls s left := by
  induction h with
  | start hmean =>
      refine ⟨below, Pending.meanwhile ⟨hF, fun c hc => .waits hc (by simp [eventsOf]),
        fun c _ => rfl, by simp⟩ hmean⟩
  | @call s₁ s₂ s' calls _ hcall hmean ih =>
      obtain ⟨left, hpending⟩ := ih
      rw [callback_eq hpending.forest] at hcall
      obtain ⟨⟨s₂', left', done⟩, hp, heq⟩ := Option.map_eq_some_iff.mp hcall
      obtain ⟨rfl, hnil⟩ := Prod.mk.inj heq
      obtain ⟨evs, hserved⟩ := completeForest_served hpending.forest _ hp
      obtain ⟨rfl, -⟩ | ⟨left'', rfl, rfl⟩ := hserved.single
      · cases hnil
      refine ⟨left'', Pending.meanwhile ⟨hserved.mergeForest hpending.forest, ?_, ?_, ?_⟩ hmean⟩
      · exact fun c hc => hpending.served hserved hc
      · intro c hc
        have hmem := hserved.left_sublist.subset hc
        rw [← hpending.due c hmem]
        cases hserved.fate c hmem with
        | waits _ _ hreq =>
            obtain ⟨m, hm⟩ := hreq
            rw [hm]
            rfl
        | completed hd => cases hd
        | freed hl => exact absurd hc hl
      · intro call hmem
        rcases List.mem_cons.mp hmem with rfl | hmem
        · exact hserved.tidy
        · exact hpending.tidy call hmem

/-- The completion of a request with any tree of merged requests, repeated after any refusals:
the next call does what the program over the rest of the tree does, which has no assertion to
fail, and once a call has succeeded the request can be freed, and then every request of the
tree has been completed once and freed once. -/
theorem merge_tree_completed_once (cfg : MemConfig) (r : ReqId) (below : Forest ReqId)
    (s₀ s : Mem) (calls : List (Mem × Mem)) (hF : MergeForest cfg s₀ (.cons r below .nil))
    (hcalls : Refusals cfg r s₀ calls s) :
    (∃ left, MergeForest cfg s (.cons r left .nil) ∧
      Mem.callback (Mem.wrapper cfg (s.fuel cfg)) r s =
        (completeForest cfg (.cons r left .nil) s).map fun p => (p.1, p.2.1.isNil)) ∧
    ∀ s₁ s₂, Mem.callback (Mem.wrapper cfg (s.fuel cfg)) r s = some (s₁, true) →
      Meanwhile r s₁ s₂ → ∀ core, ∃ s₃,
        Mem.freeReq (Mem.wrapper cfg (s₂.fuel cfg)) core r s₂ = some s₃ ∧
        CompletedOnce cfg s₀ (Forest.cons r below .nil).nodes ((s₂, s₃) :: (s, s₁) :: calls) := by
  obtain ⟨left, hpending⟩ := hcalls.pending hF
  refine ⟨⟨left, hpending.forest, callback_eq hpending.forest⟩, ?_⟩
  intro s₁ s₂ hcall hmean core
  rw [callback_eq hpending.forest] at hcall
  obtain ⟨⟨s₁', left', done⟩, hp, heq⟩ := Option.map_eq_some_iff.mp hcall
  obtain ⟨rfl, hnil⟩ := Prod.mk.inj heq
  obtain ⟨evs, hserved⟩ := completeForest_served hpending.forest _ hp
  obtain ⟨rfl, rfl⟩ | ⟨left'', rfl, -⟩ := hserved.single
  swap
  · cases hnil
  have hmerge : (s₂.req r).merge = [] := by
    rw [hmean.merge r .refl, hserved.done_req List.mem_cons_self]
  refine ⟨s₂.clearReq core r, freeReq_nil hmerge, ?_, ?_⟩
  · intro c hc
    have hevs : eventsOf ((s₂, s₂.clearReq core r) :: (s, s₁') :: calls) =
        .freed r :: eventsOf ((s, s₁') :: calls) := by
      have hnew : newEvents (s₂, s₂.clearReq core r) = [.freed r] :=
        newEvents_eq (clearReq_log core)
      rw [eventsOf, List.flatMap_cons, hnew]
      rfl
    rw [hevs]
    cases hpending.served hserved hc with
    | waits hl => cases hl
    | completed hd hdue hfreed =>
        obtain rfl := List.mem_singleton.mp hd
        exact ⟨by simpa using hdue, [], _, rfl, by simp, hfreed⟩
    | freed _ hd honce =>
        have hne : r ≠ c := fun heq => hd (List.mem_singleton.mpr heq.symm)
        have hframe : Once _ c ([.freed r] ++ (_ ++ [])) :=
          honce.frame (by simpa [subject] using hne) (by simp)
        rwa [List.append_nil] at hframe
  · intro call hmem
    rcases List.mem_cons.mp hmem with rfl | hmem
    · exact clearReq_tidy core hmerge
    · rcases List.mem_cons.mp hmem with rfl | hmem
      · exact hserved.tidy
      · exact hpending.tidy call hmem

end

/-! ## Two loads of a line and one write port -/

/-- The rest of the simulator may do nothing. -/
theorem Meanwhile.refl (r : ReqId) (s : Mem) : Meanwhile r s s :=
  ⟨fun _ _ => rfl, fun _ _ => rfl, fun _ _ => rfl, le_rfl, le_rfl⟩

/-- A machine whose L1 cache has one write port, after two loads of one line: the second was
merged into the first. -/
def mergedPair : Option Mem :=
  Mem.run (Mem.smallConfig .l2DecoupledNetwork 1)
    (Mem.construct (Mem.smallConfig .l2DecoupledNetwork 1) (fun _ => Mem.oneLine) Mem.oneLine
      (CachePort.new 4 1 false) fun u => [Mem.memUop 0 .ld 64, Mem.memUop 0 .ld 68].getD u
        (Mem.memUop 0 .notMem 0))
    [.access 0, .access 1, Mem.clock .l1 0]

/-- The completion of the first load, called twice, in two cycles of the L1 cache. -/
def mergedPairCalls (s : Mem) : Option ((Mem × Bool) × (Mem × Bool)) :=
  let complete (s : Mem) : Option (Mem × Bool) :=
    Mem.callback (Mem.wrapper (Mem.smallConfig .l2DecoupledNetwork 1)
      (s.fuel (Mem.smallConfig .l2DecoupledNetwork 1))) (.mshr 0 1) s
  (complete s).bind fun p => (complete (Mem.tickDcu ⟨.l1, 0⟩ p.1)).map fun q => (p, q)

/-- The first call completes the merged load and is refused, the second succeeds, and both
loads were completed once when the first is freed. -/
theorem merge_tree_completed_once_pair : ∃ s₀ s₁ s₂ s₃ : Mem,
    Mem.callback (Mem.wrapper (Mem.smallConfig .l2DecoupledNetwork 1)
      (s₀.fuel (Mem.smallConfig .l2DecoupledNetwork 1))) (.mshr 0 1) s₀ = some (s₁, false) ∧
    CompletedOnce (Mem.smallConfig .l2DecoupledNetwork 1) s₀ [.mshr 0 1, .mshr 0 0]
      [(s₂, s₃), (Mem.tickDcu ⟨.l1, 0⟩ s₁, s₂), (s₀, s₁)] := by
  have hrun : (mergedPair.bind fun s => (mergedPairCalls s).map fun p =>
      (((s.req (.mshr 0 1)).merge, (s.req (.mshr 0 0)).merge), ((s.req (.mshr 0 1)).doneFunc,
        (s.req (.mshr 0 0)).doneFunc), (p.1.2, p.2.2))) =
      some (([.mshr 0 0], []), (some .dcacheFillLine, some .dcacheFillLine), (false, true)) := by
    decide +kernel
  obtain ⟨s₀, -, hcalls⟩ := Option.bind_eq_some_iff.mp hrun
  obtain ⟨⟨⟨s₁, ok₁⟩, s₂, ok₂⟩, hcalls, hvalues⟩ := Option.map_eq_some_iff.mp hcalls
  simp only [Prod.mk.injEq] at hvalues
  obtain ⟨⟨hmerge, hmerge'⟩, ⟨hdone, hdone'⟩, rfl, rfl⟩ := hvalues
  obtain ⟨p, hfirst, hcalls⟩ := Option.bind_eq_some_iff.mp hcalls
  obtain ⟨q, hsecond, heq⟩ := Option.map_eq_some_iff.mp hcalls
  obtain ⟨rfl, rfl⟩ := Prod.mk.inj heq
  have hF : MergeForest (Mem.smallConfig .l2DecoupledNetwork 1) s₀
      (.cons (.mshr 0 1) (.cons (.mshr 0 0) .nil .nil) .nil) := by
    refine ⟨⟨hmerge, ⟨hmerge', trivial, trivial⟩, trivial⟩, by decide, ?_, ?_⟩
    · simp [hdone, hdone', IsFill]
    · simp [Constructed, Mem.smallConfig]
  have hrefused : Refusals (Mem.smallConfig .l2DecoupledNetwork 1) (.mshr 0 1) s₀ _
      (Mem.tickDcu ⟨.l1, 0⟩ s₁) :=
    (Refusals.start (Meanwhile.refl (.mshr 0 1) s₀)).call hfirst
      ⟨fun _ _ => rfl, fun _ _ => rfl, fun _ _ => rfl, le_rfl, le_rfl⟩
  obtain ⟨s₃, -, honce⟩ := (merge_tree_completed_once _ _ _ _ _ _ hF hrefused).2 s₂ s₂ hsecond
    (Meanwhile.refl _ _) 0
  exact ⟨s₀, s₁, s₂, s₃, hfirst, honce⟩

end MacSim.Analysis
