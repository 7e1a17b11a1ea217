import MacSim.Analysis.StepSpecs
import MacSim.Computation.Forest

/-!
# Completion over merge trees

The three fill wrappers walk through the requests merged into a request, complete those that
succeed, free them, and keep the others for the next call; each of these completions does the
same with the requests merged into it, and `free_req` may call a wrapper once more.

`completeForest` is what these functions amount to where the merge lists form a forest: a
recursion over the forest that knows neither fuel nor assertions.  It returns the part of the
forest that was refused and the roots that were completed.  The functions of the source do
exactly this (`wrapper_eq`), so in a forest `free_req` finds no merged request left.
-/

set_option autoImplicit false

namespace MacSim.Analysis

open MacSim.Model MacSim.Computation

/-! ## Forests of requests -/

/-- A request that the constructor, the pool or a write-back has created. -/
def Constructed (cfg : MemConfig) (s : Mem) : ReqId → Prop
  | .mshr c i => c < cfg.numCore ∧ i < cfg.mshrSize
  | .pool n => n < s.nextPool
  | .wb n => n < s.nextWb

/-- The completion functions that fill a line. -/
def IsFill : Option DoneFunc → Prop
  | some .dcacheWriteAck | none => False
  | _ => True

/-- The merge lists form a forest of requests that wait for a line. -/
structure MergeForest (cfg : MemConfig) (s : Mem) (F : Forest ReqId) : Prop where
  spans : F.Spans fun r => (s.req r).merge
  nodup : F.nodes.Nodup
  fills : ∀ c ∈ F.nodes, IsFill (s.req c).doneFunc
  constructed : ∀ c ∈ F.nodes, Constructed cfg s c

section

variable {cfg : MemConfig} {s s' : Mem} {r : ReqId} {below rest : Forest ReqId}

/-- What was constructed was created. -/
theorem Constructed.created (h : Constructed cfg s r) : Created (books s) r := by
  cases r with
  | mshr c i => trivial
  | pool n => exact h
  | wb n => exact h

/-- What was constructed stays so as the counters grow. -/
theorem Constructed.mono (h : Constructed cfg s r) (hpool : s.nextPool ≤ s'.nextPool)
    (hwb : s.nextWb ≤ s'.nextWb) : Constructed cfg s' r := by
  cases r with
  | mshr c i => exact h
  | pool n => exact lt_of_lt_of_le h hpool
  | wb n => exact lt_of_lt_of_le h hwb

/-- Different requests that exist are no more than were created. -/
theorem length_le_of_constructed {l : List ReqId} (hnodup : l.Nodup)
    (h : ∀ c ∈ l, Constructed cfg s c) :
    l.length ≤ cfg.numCore * cfg.mshrSize + s.nextPool + s.nextWb := by
  let entries := (Finset.range cfg.numCore ×ˢ Finset.range cfg.mshrSize).image
    fun p => ReqId.mshr p.1 p.2
  let pool := (Finset.range s.nextPool).image ReqId.pool
  let wb := (Finset.range s.nextWb).image ReqId.wb
  have hsub : l.toFinset ⊆ entries ∪ pool ∪ wb := by
    intro c hc
    have hcon := h c (List.mem_toFinset.mp hc)
    cases c with
    | mshr core i =>
        have hmem : ReqId.mshr core i ∈ entries := by
          simpa [entries, Constructed] using hcon
        simp [hmem]
    | pool n =>
        have hmem : ReqId.pool n ∈ pool := by
          simpa [pool, Constructed] using hcon
        simp [hmem]
    | wb n =>
        have hmem : ReqId.wb n ∈ wb := by
          simpa [wb, Constructed] using hcon
        simp [hmem]
  have hentries : entries.card ≤ cfg.numCore * cfg.mshrSize := by
    refine Finset.card_image_le.trans ?_
    simp
  have hpool : pool.card ≤ s.nextPool := Finset.card_image_le.trans (by simp)
  have hwb : wb.card ≤ s.nextWb := Finset.card_image_le.trans (by simp)
  calc l.length = l.toFinset.card := (List.toFinset_card_of_nodup hnodup).symm
    _ ≤ (entries ∪ pool ∪ wb).card := Finset.card_le_card hsub
    _ ≤ entries.card + pool.card + wb.card := by
        refine (Finset.card_union_le _ _).trans ?_
        exact Nat.add_le_add_right (Finset.card_union_le _ _) _
    _ ≤ cfg.numCore * cfg.mshrSize + s.nextPool + s.nextWb := by omega

/-- The fuel of a completion function is enough for every forest. -/
theorem MergeForest.height_lt_fuel {F : Forest ReqId} (h : MergeForest cfg s F) :
    F.height < s.fuel cfg := by
  have hlen := length_le_of_constructed h.nodup h.constructed
  have hheight := F.height_le_length
  unfold Mem.fuel
  omega

/-- A forest whose requests keep their merge lists and completion functions. -/
theorem MergeForest.congr {F : Forest ReqId} (h : MergeForest cfg s F)
    (hmerge : ∀ c ∈ F.nodes, (s'.req c).merge = (s.req c).merge)
    (hdone : ∀ c ∈ F.nodes, (s'.req c).doneFunc = (s.req c).doneFunc)
    (hpool : s.nextPool ≤ s'.nextPool) (hwb : s.nextWb ≤ s'.nextWb) : MergeForest cfg s' F where
  spans := h.spans.congr hmerge
  nodup := h.nodup
  fills c hc := by
    rw [hdone c hc]
    exact h.fills c hc
  constructed c hc := (h.constructed c hc).mono hpool hwb

/-- The trees below a request form a forest. -/
theorem MergeForest.under (h : MergeForest cfg s (.cons r below rest)) : MergeForest cfg s below where
  spans := h.spans.2.1
  nodup := (List.nodup_cons.mp h.nodup).2.of_append_left
  fills c hc := h.fills c (List.mem_cons_of_mem r (List.mem_append_left _ hc))
  constructed c hc := h.constructed c (List.mem_cons_of_mem r (List.mem_append_left _ hc))

/-- The trees beside a request form a forest. -/
theorem MergeForest.beside (h : MergeForest cfg s (.cons r below rest)) : MergeForest cfg s rest where
  spans := h.spans.2.2
  nodup := (List.nodup_cons.mp h.nodup).2.of_append_right
  fills c hc := h.fills c (List.mem_cons_of_mem r (List.mem_append_right _ hc))
  constructed c hc := h.constructed c (List.mem_cons_of_mem r (List.mem_append_right _ hc))

/-- The first tree alone. -/
theorem MergeForest.tree (h : MergeForest cfg s (.cons r below rest)) :
    MergeForest cfg s (.cons r below .nil) := by
  have hsub : ∀ c ∈ (Forest.cons r below .nil).nodes, c ∈ (Forest.cons r below rest).nodes := by
    intro c hc
    rw [Forest.nodes_cons, Forest.nodes_nil, List.append_nil] at hc
    rcases List.mem_cons.mp hc with rfl | hc
    · exact List.mem_cons_self
    · exact List.mem_cons_of_mem _ (List.mem_append_left _ hc)
  refine ⟨⟨h.spans.1, h.spans.2.1, trivial⟩, ?_, fun c hc => h.fills c (hsub c hc),
    fun c hc => h.constructed c (hsub c hc)⟩
  obtain ⟨hr, hnodup⟩ := List.nodup_cons.mp h.nodup
  rw [Forest.nodes_cons, Forest.nodes_nil, List.append_nil]
  exact List.nodup_cons.mpr ⟨fun hmem => hr (List.mem_append_left _ hmem), hnodup.of_append_left⟩

/-- A request is not merged below itself. -/
theorem MergeForest.root_not_below (h : MergeForest cfg s (.cons r below rest)) :
    r ∉ below.nodes := fun hr =>
  (List.nodup_cons.mp h.nodup).1 (List.mem_append_left _ hr)

/-- A request is in no tree beside its own. -/
theorem MergeForest.root_not_rest (h : MergeForest cfg s (.cons r below rest)) :
    r ∉ rest.nodes := fun hr =>
  (List.nodup_cons.mp h.nodup).1 (List.mem_append_right _ hr)

/-- What is below a request is in no tree beside it. -/
theorem MergeForest.disjoint (h : MergeForest cfg s (.cons r below rest)) {c : ReqId}
    (hc : c ∈ below.nodes) : c ∉ rest.nodes := fun hc' =>
  (List.nodup_append.mp (List.nodup_cons.mp h.nodup).2).2.2 c hc c hc' rfl

/-- The nodes of the first tree are in no other. -/
theorem MergeForest.first_disjoint (h : MergeForest cfg s (.cons r below rest)) {c : ReqId}
    (hc : c ∈ (Forest.cons r below .nil).nodes) : c ∉ rest.nodes := by
  rw [Forest.nodes_cons, Forest.nodes_nil, List.append_nil] at hc
  rcases List.mem_cons.mp hc with rfl | hc
  · exact h.root_not_rest
  · exact h.disjoint hc

end

/-! ## The program over the forest -/

/-- The own part of a fill wrapper; `clear` tells whether every merged request was completed. -/
def serveOwn (cfg : MemConfig) : DoneFunc → ReqId → Bool → Mem → Option (Mem × Bool)
  | .dcacheFillLine, r, clear, s => if clear then s.done cfg r else some (s, false)
  | .icacheFillLine, r, clear, s => (s.icacheFillLine cfg r).map fun s => (s, clear)
  | .readonlyCacheFillLine, r, clear, s =>
      if clear then (s.cacheFillLine cfg r).map fun s => (s, true) else some (s, false)
  | .dcacheWriteAck, _, _, _ => none

/-- A completed request leaves the merge list of its parent and is freed. -/
def detach (p : ReqId) (s : Mem) (c : ReqId) : Mem :=
  let s := s.modReq p fun req => { req with merge := req.merge.filter (· ≠ c) }
  s.clearReq (s.req c).coreId c

/-- The completion of every tree of a forest: below its root first, then the root itself.
What is left of the forest and the completed roots are returned; roots are freed by their
parent. -/
def completeForest (cfg : MemConfig) :
    Forest ReqId → Mem → Option (Mem × Forest ReqId × List ReqId)
  | .nil, s => some (s, .nil, [])
  | .cons r below rest, s =>
      (s.req r).doneFunc.bind fun f =>
        (completeForest cfg below (s.record (.called r))).bind fun p =>
          (serveOwn cfg f r p.2.1.isNil (p.2.2.foldl (detach r) p.1)).bind fun q =>
            (completeForest cfg rest q.1).map fun t =>
              if q.2 then (t.1, t.2.1, r :: t.2.2) else (t.1, .cons r p.2.1 t.2.1, t.2.2)

/-! ## What a call leaves behind -/

/-- The request that an event is about. -/
def subject : Event → ReqId
  | .refused _ r | .dirtied r _ | .wbDone r | .toDram r | .called r | .completed r | .freed r
  | .storeDone r _ => r

/-- The uop that the completion of a request completes, and whether its parent counts it.  An
instruction fetch has none. -/
def task (cfg : MemConfig) (req : MemReq) : Option (ℕ × Bool) :=
  match req.doneFunc with
  | some .dcacheFillLine => req.uop.map fun u => (u, (cfg.param ⟨.l1, req.cacheId .l1⟩).accSim)
  | some .readonlyCacheFillLine => req.uop.map fun u => (u, true)
  | _ => none

/-- How often the completion of a request takes effect: once, if it has a uop to complete. -/
def dueEffects (cfg : MemConfig) (req : MemReq) : ℕ := if (task cfg req).isSome then 1 else 0

/-- The completion effects of some events, the newest first. -/
def replay (tasks : ReqId → Option (ℕ × Bool)) : List Event → Mem → Mem
  | [], s => s
  | .completed c :: evs, s =>
      match tasks c with
      | some (u, countParent) => (replay tasks evs s).completeUop u countParent
      | none => replay tasks evs s
  | _ :: evs, s => replay tasks evs s

/-- A freed request: a write-back is deleted, any other is cleared. -/
def cleared (req : MemReq) : MemReq :=
  if req.type = .wb then { req with merge := [] } else { req with merge := [] }.init

/-- Some events free a request once and leave it alone afterwards; before that its completion
took effect as often as it is due. -/
def Once (due : ℕ) (c : ReqId) (evs : List Event) : Prop :=
  evs.count (.completed c) = due ∧
    ∃ new old, evs = new ++ .freed c :: old ∧ (∀ e ∈ new, subject e ≠ c) ∧ .freed c ∉ old

/-- What became of a request: it waits for the next call, it was completed but not freed, or
it was completed and freed. -/
inductive Fate (due : ℕ) (left : Forest ReqId) (done : List ReqId) (evs : List Event)
    (c : ReqId) (before after : MemReq) : Prop
  | waits (hc : c ∈ left.nodes) (hev : ∀ e ∈ evs, subject e = c → e = .called c)
      (hreq : ∃ m, after = { before with merge := m })
  | completed (hc : c ∈ done) (hdue : evs.count (.completed c) = due) (hfreed : .freed c ∉ evs)
      (hreq : after = { before with merge := [] })
  | freed (hleft : c ∉ left.nodes) (hdone : c ∉ done) (honce : Once due c evs)
      (hreq : after = cleared before)

/-- What a part of a call adds to the state. -/
structure Adds (cfg : MemConfig) (s s' : Mem) (evs : List Event) : Prop where
  log : s'.log = evs ++ s.log
  nextPool : s'.nextPool = s.nextPool
  nextWb : s.nextWb ≤ s'.nextWb
  coreCycle : s'.coreCycle = s.coreCycle
  uop : s'.uop = (replay (fun c => task cfg (s.req c)) evs s).uop

/-- What `completeForest` has done. -/
structure Served (cfg : MemConfig) (F : Forest ReqId) (s s' : Mem) (left : Forest ReqId)
    (done : List ReqId) (evs : List Event) : Prop where
  adds : Adds cfg s s' evs
  subjects : ∀ e ∈ evs, subject e ∈ F.nodes
  untouched : ∀ c, Created (books s) c → (∀ e ∈ evs, subject e ≠ c) → s'.req c = s.req c
  fate : ∀ c ∈ F.nodes, Fate (dueEffects cfg (s.req c)) left done evs c (s.req c) (s'.req c)
  left_sublist : left.nodes.Sublist F.nodes
  left_roots : left.roots = F.roots.filter (· ∉ done)
  left_spans : left.Spans fun c => (s'.req c).merge
  done_sublist : done.Sublist F.roots
  done_left : ∀ c ∈ done, c ∉ left.nodes

/-! ## Effects on uops -/

section

variable {cfg : MemConfig} {s t u : Mem}

/-- Completing a uop leaves the clocks of the cores alone. -/
@[simp] theorem completeUop_coreCycle (v : ℕ) (countParent : Bool) :
    (s.completeUop v countParent).coreCycle = s.coreCycle := by
  unfold Mem.completeUop
  dsimp only
  split
  · split
    · rfl
    · split <;> rfl
  · rfl

/-- The completion of a uop reads only uops and clocks. -/
theorem completeUop_congr (huop : s.uop = t.uop) (hcycle : s.coreCycle = t.coreCycle) (v : ℕ)
    (countParent : Bool) :
    (s.completeUop v countParent).uop = (t.completeUop v countParent).uop := by
  obtain ⟨_, _, _, _, _, _, _, _, _, _, _, _, _, _, _, _, _, _, _⟩ := s
  obtain ⟨_, _, _, _, _, _, _, _, _, _, _, _, _, _, _, _, _, _, _⟩ := t
  dsimp only at huop hcycle
  subst huop hcycle
  unfold Mem.completeUop
  dsimp only [Mem.modUop]
  split
  · split
    · rfl
    · split <;> rfl
  · rfl

/-- Replaying events leaves the clocks of the cores alone. -/
theorem replay_coreCycle (tasks : ReqId → Option (ℕ × Bool)) (evs : List Event) :
    (replay tasks evs s).coreCycle = s.coreCycle := by
  induction evs with
  | nil => rfl
  | cons e evs ih =>
      cases e with
      | completed c =>
          simp only [replay]
          split
          · rw [completeUop_coreCycle]
            exact ih
          · exact ih
      | _ => exact ih

/-- The replay depends on the uops, the clocks and the tasks of what was completed. -/
theorem replay_congr (huop : s.uop = t.uop) (hcycle : s.coreCycle = t.coreCycle)
    {tasks tasks' : ReqId → Option (ℕ × Bool)} {evs : List Event}
    (htasks : ∀ c, .completed c ∈ evs → tasks' c = tasks c) :
    (replay tasks' evs s).uop = (replay tasks evs t).uop := by
  induction evs with
  | nil => exact huop
  | cons e evs ih =>
      have ih := ih fun c hc => htasks c (List.mem_cons_of_mem e hc)
      cases e with
      | completed c =>
          simp only [replay, htasks c List.mem_cons_self]
          split
          · apply completeUop_congr ih
            rw [replay_coreCycle, replay_coreCycle]
            exact hcycle
          · exact ih
      | _ => exact ih

/-- Replaying two lists is replaying the older one and then the newer one. -/
theorem replay_append (tasks : ReqId → Option (ℕ × Bool)) (new old : List Event) :
    replay tasks (new ++ old) s = replay tasks new (replay tasks old s) := by
  induction new with
  | nil => rfl
  | cons e new ih =>
      cases e with
      | completed c =>
          simp only [List.cons_append, replay]
          split
          · rw [ih]
          · exact ih
      | _ => exact ih

/-- Events that complete nothing have no effect on uops. -/
theorem replay_of_no_completed {tasks : ReqId → Option (ℕ × Bool)} {evs : List Event}
    (h : ∀ c, .completed c ∉ evs) : replay tasks evs s = s := by
  induction evs with
  | nil => rfl
  | cons e evs ih =>
      have ih := ih fun c hc => h c (List.mem_cons_of_mem e hc)
      cases e with
      | completed c => exact absurd List.mem_cons_self (h c)
      | _ => exact ih

/-- Events that complete nothing, added without a change of uops and clocks. -/
theorem Adds.of_quiet {evs : List Event} (hlog : t.log = evs ++ s.log)
    (hpool : t.nextPool = s.nextPool) (hwb : s.nextWb ≤ t.nextWb)
    (hcycle : t.coreCycle = s.coreCycle) (huop : t.uop = s.uop)
    (hevs : ∀ c, .completed c ∉ evs) : Adds cfg s t evs where
  log := hlog
  nextPool := hpool
  nextWb := hwb
  coreCycle := hcycle
  uop := by
    rw [replay_of_no_completed hevs]
    exact huop

/-- The events of two parts in a row are those of the second before those of the first. -/
theorem Adds.trans {new old : List Event} (h : Adds cfg s t old) (h' : Adds cfg t u new)
    (htask : ∀ c, .completed c ∈ new → task cfg (t.req c) = task cfg (s.req c)) :
    Adds cfg s u (new ++ old) where
  log := by rw [h'.log, h.log, List.append_assoc]
  nextPool := h'.nextPool.trans h.nextPool
  nextWb := h.nextWb.trans h'.nextWb
  coreCycle := h'.coreCycle.trans h.coreCycle
  uop := by
    rw [h'.uop, replay_append]
    refine replay_congr h.uop ?_ htask
    rw [replay_coreCycle]
    exact h.coreCycle

end

/-! ## Freeing completed requests -/

section

variable {s : Mem} {r c : ReqId}

/-- Freeing a request resets it unless it is a write-back. -/
theorem clearReq_req (core : ℕ) (x : ReqId) :
    (s.clearReq core c).req x =
      if x = c ∧ (s.req c).type ≠ .wb then (s.req c).init else s.req x := by
  unfold Mem.clearReq
  by_cases hwb : (s.req c).type = .wb
  · simp [hwb, Mem.record]
  · by_cases hx : x = c
    · subst hx
      simp [hwb, Mem.modReq, Mem.record]
    · simp [hwb, hx, Mem.modReq, Mem.record]

/-- Freeing a request notes that it was freed. -/
theorem clearReq_log (core : ℕ) : (s.clearReq core c).log = .freed c :: s.log := by
  unfold Mem.clearReq
  split <;> rfl

/-- The requests after one was detached. -/
theorem detach_req (hrc : c ≠ r) (x : ReqId) :
    (detach r s c).req x =
      if x = c then (if (s.req c).type = .wb then s.req c else (s.req c).init)
      else if x = r then { s.req r with merge := (s.req r).merge.filter (· ≠ c) }
      else s.req x := by
  unfold detach
  dsimp only
  rw [clearReq_req]
  by_cases hx : x = c
  · subst hx
    by_cases hwb : (s.req x).type = .wb <;> simp [Mem.modReq, hrc, hwb]
  · by_cases hxr : x = r
    · subst hxr
      simp [Mem.modReq, hx]
    · simp [Mem.modReq, hx, hxr]

/-- The rest of the state after requests were detached. -/
theorem detachAll_adds (cfg : MemConfig) (cs : List ReqId) :
    Adds cfg s (cs.foldl (detach r) s) (cs.reverse.map .freed) := by
  induction cs generalizing s with
  | nil => exact Adds.of_quiet rfl rfl le_rfl rfl rfl (by simp)
  | cons c cs ih =>
      have hone : Adds cfg s (detach r s c) [.freed c] := by
        unfold detach
        dsimp only
        apply Adds.of_quiet
        · rw [clearReq_log]
          rfl
        · unfold Mem.clearReq
          split <;> rfl
        · unfold Mem.clearReq
          split <;> exact le_rfl
        · unfold Mem.clearReq
          split <;> rfl
        · unfold Mem.clearReq
          split <;> rfl
        · simp
      rw [List.foldl_cons, List.reverse_cons, List.map_append]
      refine hone.trans ih ?_
      simp

/-- The requests after several were detached. -/
theorem detachAll_req {cs : List ReqId} (hr : r ∉ cs) (hnodup : cs.Nodup)
    (hmerge : ∀ c ∈ cs, (s.req c).merge = []) (x : ReqId) :
    (cs.foldl (detach r) s).req x =
      if x ∈ cs then cleared (s.req x)
      else if x = r then { s.req r with merge := (s.req r).merge.filter (· ∉ cs) }
      else s.req x := by
  induction cs generalizing s with
  | nil =>
      by_cases hx : x = r
      · subst hx
        simp
      · simp [hx]
  | cons c cs ih =>
      obtain ⟨hrc, hr⟩ : r ≠ c ∧ r ∉ cs := by simpa using hr
      obtain ⟨hc, hnodup⟩ := List.nodup_cons.mp hnodup
      have hcr : c ≠ r := Ne.symm hrc
      have hreq := detach_req (s := s) hcr
      have hmerge' : ∀ d ∈ cs, ((detach r s c).req d).merge = [] := by
        intro d hd
        have hdc : d ≠ c := by
          rintro rfl
          exact hc hd
        have hdr : d ≠ r := by
          rintro rfl
          exact hr hd
        rw [hreq, if_neg hdc, if_neg hdr]
        exact hmerge d (List.mem_cons_of_mem c hd)
      rw [List.foldl_cons, ih hr hnodup hmerge', hreq x, hreq r]
      by_cases hxc : x = c
      · subst hxc
        have hnil : { s.req x with merge := [] } = s.req x := by
          rw [← hmerge x List.mem_cons_self]
        simp [hc, hcr, cleared, hnil]
      · by_cases hxr : x = r
        · subst hxr
          simp only [hr, hxc, if_false, if_true, List.mem_cons, or_self, List.filter_filter]
          congr 1
          apply List.filter_congr
          intro y _
          by_cases hy : y = c <;> simp [hy, hc]
        · simp [hxc, hxr]

/-- The second loop of the wrappers, when the completed requests have nothing merged. -/
theorem releaseMerged_eq {w : DoneFunc → ReqId → Mem → Option (Mem × Bool)} (cs : List ReqId)
    (hr : r ∉ cs) (hnodup : cs.Nodup) (hmerge : ∀ c ∈ cs, (s.req c).merge = []) :
    Mem.releaseMerged w r cs s = some (cs.foldl (detach r) s) := by
  induction cs generalizing s with
  | nil => rfl
  | cons c cs ih =>
      obtain ⟨hrc, hr⟩ : r ≠ c ∧ r ∉ cs := by simpa using hr
      obtain ⟨hc, hnodup⟩ := List.nodup_cons.mp hnodup
      have hcr : c ≠ r := Ne.symm hrc
      unfold Mem.releaseMerged
      extract_lets t
      have hnil : (t.req c).merge = [] := by
        dsimp only [t]
        simpa [Mem.modReq, hcr] using hmerge c List.mem_cons_self
      rw [freeReq_nil hnil, Option.bind_some]
      apply ih hr hnodup
      intro d hd
      have hdc : d ≠ c := by
        rintro rfl
        exact hc hd
      have hdr : d ≠ r := by
        rintro rfl
        exact hr hd
      have hreq := detach_req (s := s) hcr d
      rw [if_neg hdc, if_neg hdr] at hreq
      change ((detach r s c).req d).merge = []
      rw [hreq]
      exact hmerge d (List.mem_cons_of_mem c hd)

end

/-! ## The own completion of a request -/

/-- A part of a call that is about caches and ports: it adds no event, leaves uops alone, and
rewrites no request but write-backs it creates. -/
structure Silent (cfg : MemConfig) (s t : Mem) : Prop where
  adds : Adds cfg s t []
  req : ∀ c, Created (books s) c → t.req c = s.req c

section

variable {cfg : MemConfig} {s t u : Mem} {r : ReqId} {d : DcuId}

/-- What was created stays created. -/
theorem Adds.created {evs : List Event} (h : Adds cfg s t evs) {c : ReqId}
    (hc : Created (books s) c) : Created (books t) c := by
  cases c with
  | mshr core i => trivial
  | pool n =>
      change n < t.nextPool
      rw [h.nextPool]
      exact hc
  | wb n => exact lt_of_lt_of_le hc h.nextWb

/-- Doing nothing is silent. -/
theorem Silent.refl (cfg : MemConfig) (s : Mem) : Silent cfg s s :=
  ⟨Adds.of_quiet rfl rfl le_rfl rfl rfl (by simp), fun _ _ => rfl⟩

/-- Silent parts compose. -/
theorem Silent.trans (h : Silent cfg s t) (h' : Silent cfg t u) : Silent cfg s u :=
  ⟨h.adds.trans h'.adds (by simp), fun c hc => (h'.req c (h.adds.created hc)).trans (h.req c hc)⟩

/-- A change of a cache unit is silent. -/
theorem silent_modDcu (cfg : MemConfig) (f : Dcu → Dcu) : Silent cfg s (s.modDcu d f) :=
  ⟨Adds.of_quiet rfl rfl le_rfl rfl rfl (by simp), fun _ _ => rfl⟩

/-- Writing back a victim is silent. -/
theorem silent_evict {victim : Addr} {data : DcacheData} :
    Ensures (s.evict cfg d r victim data) fun t => Silent cfg s t := by
  unfold Mem.evict Mem.evictOr
  extract_lets data' w s' q
  split
  · rename_i hok
    apply Ensures.of_some
    have hfull : s'.full ⟨d, .wbQueue⟩ ≠ true := by
      intro hfull
      have hrefused : q.2 = false := by
        dsimp only [q]
        rw [Mem.push, if_pos hfull]
      rw [hrefused] at hok
      cases hok
    have hpush : q.1 = (s'.push cfg ⟨d, .wbQueue⟩ w.2).1 := rfl
    rw [hpush, Mem.push, if_neg hfull]
    refine ⟨Adds.of_quiet rfl rfl (Nat.le_succ _) rfl rfl (by simp), fun c hc => ?_⟩
    -- the new write-back did not exist before
    have hne : c ≠ .wb s.nextWb := by
      rintro rfl
      exact absurd hc (lt_irrefl _)
    simp [Mem.setEntries, Mem.modDcu, Mem.modReq, s', w, Mem.newWbReq, hne]
  · exact Ensures.of_none

/-- Inserting a line is silent. -/
theorem silent_insertLine {c : Cache DcacheData} :
    Ensures (s.insertLine cfg d c r) fun t => Silent cfg s t := by
  unfold Mem.insertLine Mem.insertLineOr
  refine Ensures.bind Ensures.trivial fun p _ => ?_
  refine Ensures.bind Ensures.trivial fun data _ => ?_
  dsimp only
  split
  · exact Ensures.map silent_evict fun t ht => ht.trans (silent_modDcu cfg _)
  · exact Ensures.of_some (silent_modDcu cfg _)

/-- Taking a write port is silent. -/
theorem silent_getWritePort (bank : ℕ) (cycle : Counter) :
    Ensures (s.getWritePort d bank cycle) fun p => Silent cfg s p.1 := by
  unfold Mem.getWritePort
  refine Ensures.map Ensures.trivial fun p _ => ?_
  dsimp only
  exact silent_modDcu cfg _

/-- What the own completion of a request adds: nothing when it is refused, its effect when it
succeeds. -/
structure OwnPart (cfg : MemConfig) (r : ReqId) (clear : Bool) (s t : Mem) (ok : Bool)
    (evs : List Event) : Prop where
  adds : Adds cfg s t evs
  subjects : ∀ e ∈ evs, subject e = r
  req : ∀ c, Created (books s) c → t.req c = s.req c
  refused : ok = false → evs = []
  clear : ok = true → clear = true
  due : ok = true → evs.count (.completed r) = dueEffects cfg (s.req r)
  freed : .freed r ∉ evs

/-- A silent part is that of a completion that is refused. -/
theorem OwnPart.of_silent {clear : Bool} (h : Silent cfg s t) :
    OwnPart cfg r clear s t false [] where
  adds := h.adds
  subjects := by simp
  req := h.req
  refused _ := rfl
  clear := nofun
  due := nofun
  freed := by simp

/-- A silent part may come before the own completion. -/
theorem Silent.ownPart {clear ok : Bool} {evs : List Event} (h : Silent cfg s t)
    (hr : Created (books s) r) (ho : OwnPart cfg r clear t u ok evs) :
    OwnPart cfg r clear s u ok evs where
  adds := by
    have htrans := h.adds.trans ho.adds fun c hc => by
      have hcr := ho.subjects _ hc
      rw [show c = r from hcr, h.req r hr]
    simpa using htrans
  subjects := ho.subjects
  req c hc := (ho.req c (h.adds.created hc)).trans (h.req c hc)
  refused := ho.refused
  clear := ho.clear
  due hok := by
    rw [ho.due hok, h.req r hr]
  freed := ho.freed

/-- A completion of a uop and the event that notes it. -/
theorem completeUop_ownPart {v : ℕ} {b : Bool} (htask : task cfg (s.req r) = some (v, b)) :
    OwnPart cfg r true s ((s.completeUop v b).record (.completed r)) true [.completed r] where
  adds := by
    have hkeep : (s.completeUop v b).log = s.log ∧ (s.completeUop v b).nextPool = s.nextPool ∧
        (s.completeUop v b).nextWb = s.nextWb := by
      unfold Mem.completeUop
      dsimp only
      split
      · split
        · exact ⟨rfl, rfl, rfl⟩
        · split <;> exact ⟨rfl, rfl, rfl⟩
      · exact ⟨rfl, rfl, rfl⟩
    refine ⟨?_, hkeep.2.1, hkeep.2.2.ge, completeUop_coreCycle v b, ?_⟩
    · simp [Mem.record, hkeep.1]
    · simp [Mem.record, replay, htask]
  subjects := by simp [subject]
  req c _ := by
    unfold Mem.completeUop Mem.record
    dsimp only
    split
    · split
      · rfl
      · split <;> rfl
    · rfl
  refused := nofun
  clear _ := rfl
  due _ := by simp [dueEffects, htask]
  freed := by simp

/-- The effect of an L1 fill is the own completion of its request. -/
theorem doneEffect_ownPart (hd : d = ⟨.l1, (s.req r).cacheId .l1⟩)
    (hf : (s.req r).doneFunc = some .dcacheFillLine) :
    ∃ evs, OwnPart cfg r true s (s.doneEffect cfg d r) true evs := by
  unfold Mem.doneEffect
  extract_lets t
  obtain ⟨old, hadds, hreq, hold⟩ : ∃ old, Adds cfg s t old ∧ t.req = s.req ∧
      ∀ e ∈ old, ∃ b, e = .storeDone r b := by
    dsimp only [t]
    split
    · exact ⟨[.storeDone r (s.dirtyOnPath cfg r)],
        Adds.of_quiet rfl rfl le_rfl rfl rfl (by simp), rfl, by simp⟩
    · exact ⟨[], Adds.of_quiet rfl rfl le_rfl rfl rfl (by simp), rfl, by simp⟩
  have hold_completed : .completed r ∉ old := fun hmem => by
    obtain ⟨b, hb⟩ := hold _ hmem
    cases hb
  have hold_freed : .freed r ∉ old := fun hmem => by
    obtain ⟨b, hb⟩ := hold _ hmem
    cases hb
  have hold_subject : ∀ e ∈ old, subject e = r := by
    intro e he
    obtain ⟨b, rfl⟩ := hold e he
    rfl
  rw [hreq]
  split
  · rename_i hnone
    refine ⟨old, hadds, hold_subject, fun c _ => by rw [hreq], nofun, fun _ => rfl, fun _ => ?_,
      hold_freed⟩
    rw [List.count_eq_zero_of_not_mem hold_completed]
    simp [dueEffects, task, hf, hnone]
  · rename_i v hsome
    have htask : task cfg (t.req r) = some (v, (cfg.param d).accSim) := by
      rw [hreq, hd]
      simp [task, hf, hsome]
    have hown := completeUop_ownPart htask
    refine ⟨[.completed r] ++ old, hadds.trans hown.adds fun c _ => by rw [hreq], ?_,
      fun c hc => ?_, nofun, fun _ => rfl, fun _ => ?_, ?_⟩
    · intro e he
      rcases List.mem_append.mp he with he | he
      · exact hown.subjects e he
      · exact hold_subject e he
    · rw [hown.req c (hadds.created hc), hreq]
    · have hdue := hown.due rfl
      rw [hreq] at hdue
      rw [List.count_append, hdue, List.count_eq_zero_of_not_mem hold_completed, add_zero]
    · simpa using hold_freed

/-- The completion of an L1 fill adds its own events or is refused. -/
theorem done_ownPart (hr : Created (books s) r)
    (hf : (s.req r).doneFunc = some .dcacheFillLine) :
    Ensures (s.done cfg r) fun p => ∃ evs, OwnPart cfg r true s p.1 p.2 evs := by
  have hend {t : Mem} (h : Silent cfg s t) :
      ∃ evs, OwnPart cfg r true s (t.doneEffect cfg ⟨.l1, (s.req r).cacheId .l1⟩ r) true evs := by
    have hreq := h.req r hr
    obtain ⟨evs, hown⟩ : ∃ evs, OwnPart cfg r true t
        (t.doneEffect cfg ⟨.l1, (t.req r).cacheId .l1⟩ r) true evs :=
      doneEffect_ownPart rfl (by rw [hreq, hf])
    rw [hreq] at hown
    exact ⟨evs, h.ownPart hr hown⟩
  unfold Mem.done Mem.doneOr Mem.dcuDoneOr
  split
  · exact Ensures.of_some ⟨[], OwnPart.of_silent (Silent.refl cfg s)⟩
  · split
    · exact Ensures.of_some (hend (Silent.refl cfg s))
    · refine Ensures.bind Ensures.trivial fun c _ => ?_
      have hport (d : DcuId) (bank : ℕ) (cycle : Counter) :
          Ensures (s.getWritePort d bank cycle) fun p => Silent cfg s p.1 :=
        silent_getWritePort bank cycle
      refine Ensures.bind (hport _ _ _) fun p hp => ?_
      split
      · split
        · refine Ensures.map silent_insertLine fun t ht => ?_
          exact hend (hp.trans ht)
        · exact Ensures.of_some (hend (hp.trans (silent_modDcu cfg _)))
      · exact Ensures.of_some ⟨[], OwnPart.of_silent hp⟩

/-- The fill of a read-only line is the own completion of its request. -/
theorem cacheFillLine_ownPart (hf : (s.req r).doneFunc = some .readonlyCacheFillLine)
    (hr : Created (books s) r) :
    Ensures (s.cacheFillLine cfg r) fun t => ∃ evs, OwnPart cfg r true s t true evs := by
  unfold Mem.cacheFillLine
  refine Ensures.bind (P := fun v => (s.req r).uop = some v) (fun v hv => hv) fun v hv => ?_
  refine Ensures.map (P := fun t => Silent cfg s t) ?_ fun t ht => ?_
  · split
    · refine Ensures.map Ensures.trivial fun p _ => ?_
      exact ⟨Adds.of_quiet rfl rfl le_rfl rfl rfl (by simp), fun _ _ => rfl⟩
    · refine Ensures.map Ensures.trivial fun p _ => ?_
      exact ⟨Adds.of_quiet rfl rfl le_rfl rfl rfl (by simp), fun _ _ => rfl⟩
    · exact Ensures.of_none
  · refine ⟨_, ht.ownPart hr (completeUop_ownPart ?_)⟩
    rw [ht.req r hr]
    simp [task, hf, hv]

/-- The fill of an instruction line is silent. -/
theorem icacheFillLine_silent : Ensures (s.icacheFillLine cfg r) fun t => Silent cfg s t := by
  unfold Mem.icacheFillLine
  refine Ensures.map Ensures.trivial fun c _ => ?_
  exact ⟨Adds.of_quiet rfl rfl le_rfl rfl rfl (by simp), fun _ _ => rfl⟩

/-- Serving a request itself adds its own events or is refused. -/
theorem serveOwn_ownPart {f : DoneFunc} {clear : Bool} (hf : (s.req r).doneFunc = some f)
    (hr : Created (books s) r) :
    Ensures (serveOwn cfg f r clear s) fun p => ∃ evs, OwnPart cfg r clear s p.1 p.2 evs := by
  cases f with
  | dcacheFillLine =>
      cases clear with
      | true => exact done_ownPart hr hf
      | false => exact Ensures.of_some ⟨[], OwnPart.of_silent (Silent.refl cfg s)⟩
  | icacheFillLine =>
      refine Ensures.map icacheFillLine_silent fun t ht => ⟨[], ht.adds, by simp, ht.req,
        fun _ => rfl, id, fun _ => ?_, by simp⟩
      simp [dueEffects, task, hf]
  | readonlyCacheFillLine =>
      cases clear with
      | true => exact Ensures.map (cacheFillLine_ownPart hf hr) fun t ht => ht
      | false => exact Ensures.of_some ⟨[], OwnPart.of_silent (Silent.refl cfg s)⟩
  | dcacheWriteAck => exact Ensures.of_none

end

end MacSim.Analysis
