import MacSim.Analysis.BackEndBooks

/-!
# The moves of the back end

A uop goes from the frontend queue to its reorder buffer, and from there to the write buffer
or back to the pool.  `Held` is what every move keeps as long as the list of ready uops of a
GPU core is used up in its cycle.
-/

set_option autoImplicit false

namespace MacSim.Analysis

open MacSim.Model MacSim.Computation

namespace BackEnd

/-- The uops in the reorder buffers. -/
def inRob (s : BackEnd) : List UopPtr := s.robs.flatMap fun t => (s.rob t).entries

/-- The uops in the reorder buffers of the threads other than `t`. -/
def others (s : BackEnd) (t : ℤ) : List UopPtr :=
  (s.robs.erase t).flatMap fun t => (s.rob t).entries

/-- The uops that the back end holds. -/
def held (s : BackEnd) : List UopPtr := s.frontendQ ++ (inRob s ++ s.writeBuffer)

/-- The uops in the reorder buffers are those of one buffer and the others. -/
theorem inRob_split {s : BackEnd} {t : ℤ} (ht : t ∈ s.robs) :
    (inRob s).Perm ((s.rob t).entries ++ others s t) := by
  have := (List.perm_cons_erase ht).flatMap_right fun t => (s.rob t).entries
  rwa [List.flatMap_cons] at this

/-- What is written into one reorder buffer is not in the others. -/
theorem others_setRob {s : BackEnd} {t : ℤ} (hnd : s.robs.Nodup) (r : Rob) :
    others (s.setRob t r) t = others s t := by
  refine List.flatMap_congr fun u hu => ?_
  have hne : u ≠ t := fun heq => hnd.not_mem_erase (heq ▸ hu)
  simp [BackEnd.setRob, hne]

/-- A uop is in a reorder buffer when it is in that of a thread. -/
theorem mem_inRob {s : BackEnd} {p : UopPtr} :
    p ∈ inRob s ↔ ∃ t ∈ s.robs, p ∈ (s.rob t).entries := by
  simp [inRob]

/-- What the lists hold, apart from the books. -/
structure Shape (k : BackKnobs) (s : BackEnd) : Prop where
  nodup : s.robs.Nodup
  nonneg : ∀ t ∈ s.robs, 0 ≤ t
  cpu : k.gpu = false → s.robs = [0]
  keyed : ∀ t ∈ s.robs, ∀ p ∈ (s.rob t).entries, BackEnd.robKey k (s.heap p) = t
  stores : ∀ p ∈ s.writeBuffer, (s.heap p).memType = .st
  gpu : k.gpu = true → s.writeBuffer = []

/-- The invariant of the runs. -/
structure Held (k : BackKnobs) (s : BackEnd) : Prop where
  books : Books s (held s)
  shape : Shape k s

/-- A new core holds nothing. -/
theorem Held.new (k : BackKnobs) : Held k (BackEnd.new k) where
  books := by
    have hheld : held (BackEnd.new k) = [] := by
      cases hk : k.gpu <;> simp [held, inRob, BackEnd.new, Rob.new, hk]
    rw [hheld]
    exact ⟨Arena.Owns.empty, by simp [BackEnd.new], by simp [BackEnd.new]⟩
  shape := by
    refine ⟨?_, ?_, ?_, ?_, ?_, ?_⟩
    · cases hk : k.gpu <;> simp [BackEnd.new, hk]
    · cases hk : k.gpu <;> simp [BackEnd.new, hk]
    · intro hk
      simp [BackEnd.new, hk]
    · simp [BackEnd.new, Rob.new]
    · simp [BackEnd.new]
    · simp [BackEnd.new]

/-- The books when uops change what does not identify them. -/
theorem Shape.congr {k : BackKnobs} {s s' : BackEnd} (h : Shape k s) (hrobs : s'.robs = s.robs)
    (hrob : ∀ t, (s'.rob t).entries = (s.rob t).entries)
    (hwb : s'.writeBuffer = s.writeBuffer)
    (hheap : ∀ p ∈ inRob s ++ s.writeBuffer,
      (s'.heap p).threadId = (s.heap p).threadId ∧ (s'.heap p).memType = (s.heap p).memType) :
    Shape k s' where
  nodup := hrobs ▸ h.nodup
  nonneg := hrobs ▸ h.nonneg
  cpu hk := hrobs ▸ h.cpu hk
  keyed t ht p hp := by
    rw [hrobs] at ht
    rw [hrob] at hp
    have hmem : p ∈ inRob s ++ s.writeBuffer :=
      List.mem_append_left _ (mem_inRob.mpr ⟨t, ht, hp⟩)
    have hkey := h.keyed t ht p hp
    rw [BackEnd.robKey] at hkey ⊢
    rwa [(hheap p hmem).1]
  stores p hp := by
    rw [hwb] at hp
    rw [(hheap p (List.mem_append_right _ hp)).2, h.stores p hp]
  gpu hk := by rw [hwb, h.gpu hk]

/-! ## Fetch, allocation, execution -/

/-- A fetch keeps the books, and touches no uop but the new one. -/
theorem Held.fetch {k : BackKnobs} {s : BackEnd} (h : Held k s) (n : NewUop) :
    Held k (s.fetch n) ∧ Grew s { s.fetch n with frontendQ := s.frontendQ } (held s) := by
  obtain ⟨p, s₁, hb, hg, heq⟩ := h.books.fetch n
  obtain ⟨heap, pool, num, rfl⟩ := hg.fields
  rw [heq]
  refine ⟨⟨?_, ?_⟩, hg⟩
  · have hperm : (p :: held s).Perm (s.frontendQ ++ [p] ++ (inRob s ++ s.writeBuffer)) := by
      rw [List.append_assoc]
      exact List.perm_middle.symm
    exact (hb.perm hperm).congr (SameIds.of_heap rfl) rfl rfl rfl
  · refine h.shape.congr rfl (fun _ => rfl) rfl fun q hq => ?_
    have hself := hg.self (List.mem_append_right s.frontendQ hq)
    change heap q = s.heap q at hself
    simp [hself]

/-- An allocation changes nothing of a uop but the resources it has. -/
theorem allocResource_heap (s : BackEnd) (p : UopPtr) (req : Option PhysRes) (q : UopPtr) :
    ((s.allocResource p req).heap q).uniqueNum = (s.heap q).uniqueNum ∧
      ((s.allocResource p req).heap q).childUops = (s.heap q).childUops ∧
      ((s.allocResource p req).heap q).threadId = (s.heap q).threadId ∧
      ((s.allocResource p req).heap q).memType = (s.heap q).memType := by
  cases req with
  | none => simp [BackEnd.allocResource]
  | some r =>
      by_cases hq : q = p
      · subst hq
        simp [BackEnd.allocResource, BackEnd.setUop]
      · simp [BackEnd.allocResource, BackEnd.setUop, hq]

/-- A uop is pushed into its reorder buffer. -/
structure Pushed (k : BackKnobs) (s s' : BackEnd) (p : UopPtr) (rest : List UopPtr) : Prop where
  front : s.frontendQ = p :: rest
  key : BackEnd.robKey k (s.heap p) ∈ s.robs
  room : ∀ r ∈ BackEnd.requirement k (s.heap p), 1 ≤ s.free r
  fields : ∃ heap r, s' =
    { s with
      heap := heap
      free := (s.allocResource p (BackEnd.requirement k (s.heap p))).free
      rob := Function.update s.rob (BackEnd.robKey k (s.heap p)) r
      frontendQ := rest } ∧
    r.entries = (s.rob (BackEnd.robKey k (s.heap p))).entries ++ [p]
  heap : ∀ q, ∃ v, s'.heap q =
    { (s.allocResource p (BackEnd.requirement k (s.heap p))).heap q with memVersion := v }

/-- The version of an entry does not change which entries there are. -/
theorem processVersion_entries (r : Rob) (fence : Bool) (uop : BackUop) :
    (r.processVersion fence uop).entries = r.entries := by
  unfold Rob.processVersion
  generalize uop.uopType = type
  cases fence <;> cases type <;> rfl

/-- An allocation does nothing, or pushes the first uop of its queue. -/
theorem allocate_cases {k : BackKnobs} {s s' : BackEnd} {space : Bool}
    (h : s.allocate k space = some s') : s' = s ∨ ∃ p rest, Pushed k s s' p rest := by
  unfold BackEnd.allocate at h
  split at h
  · exact .inl (Option.some.inj h).symm
  · rename_i p rest hfront
    dsimp only at h
    split at h
    · cases h
    · rename_i hkey
      split at h
      · exact .inl (Option.some.inj h).symm
      · rename_i hroom
        right
        simp only [not_or, not_exists, not_and, Nat.not_lt] at hroom
        refine ⟨p, rest, hfront, not_not.mp hkey, fun r hr => ?_, ?_, ?_⟩
        · have := hroom.2.2 r hr
          omega
        · cases hreq : BackEnd.requirement k (s.heap p) with
          | none =>
              rw [hreq] at h
              refine ⟨_, _, (Option.some.inj h).symm, ?_⟩
              change (Rob.processVersion _ _ _).entries ++ [p] = _
              rw [processVersion_entries]
              rfl
          | some r =>
              rw [hreq] at h
              refine ⟨_, _, (Option.some.inj h).symm, ?_⟩
              change (Rob.processVersion _ _ _).entries ++ [p] = _
              rw [processVersion_entries]
              rfl
        · intro q
          obtain rfl := Option.some.inj h
          by_cases hq : q = p
          · subst hq
            exact ⟨_, by simp [BackEnd.setUop, BackEnd.setRob]; rfl⟩
          · exact ⟨((s.allocResource p (BackEnd.requirement k (s.heap p))).heap q).memVersion, by
              simp [BackEnd.setUop, BackEnd.setRob, hq]⟩

namespace Pushed

variable {k : BackKnobs} {s s' : BackEnd} {p : UopPtr} {rest : List UopPtr}

/-- A push keeps the ids. -/
theorem sameIds (h : Pushed k s s' p rest) : SameIds s s' := by
  intro q
  obtain ⟨v, hv⟩ := h.heap q
  have hq := allocResource_heap s p (BackEnd.requirement k (s.heap p)) q
  rw [hv]
  exact ⟨hq.1, hq.2.1⟩

/-- A push adds one uop to those in the reorder buffers. -/
theorem inRob_perm (h : Pushed k s s' p rest) (hnd : s.robs.Nodup) :
    (inRob s').Perm (p :: inRob s) := by
  obtain ⟨heap, r, rfl, hr⟩ := h.fields
  have hsplit := inRob_split (s := s.setRob (BackEnd.robKey k (s.heap p)) r) h.key
  rw [others_setRob hnd] at hsplit
  refine hsplit.trans ?_
  have hself : ((s.setRob (BackEnd.robKey k (s.heap p)) r).rob
      (BackEnd.robKey k (s.heap p))).entries =
        (s.rob (BackEnd.robKey k (s.heap p))).entries ++ [p] := by
    simp [BackEnd.setRob, hr]
  rw [hself, List.append_assoc]
  exact List.perm_middle.trans ((inRob_split h.key).symm.cons p)

/-- A push keeps the books. -/
theorem held (h : Pushed k s s' p rest) (hs : Held k s) : Held k s' := by
  have hperm := h.inRob_perm hs.shape.nodup
  have hids := h.sameIds
  have hsame : ∀ q, (s'.heap q).threadId = (s.heap q).threadId ∧
      (s'.heap q).memType = (s.heap q).memType := by
    intro q
    obtain ⟨v, hv⟩ := h.heap q
    have hq := allocResource_heap s p (BackEnd.requirement k (s.heap p)) q
    rw [hv]
    exact hq.2.2
  obtain ⟨heap, r, rfl, hr⟩ := h.fields
  constructor
  · refine (hs.books.perm ?_).congr hids rfl rfl rfl
    rw [BackEnd.held, h.front, BackEnd.held]
    refine List.Perm.symm ?_
    refine ((hperm.append_right _).append_left _).trans ?_
    exact List.perm_middle
  · refine ⟨hs.shape.nodup, hs.shape.nonneg, hs.shape.cpu, fun t ht q hq => ?_, fun q hq => ?_,
      hs.shape.gpu⟩
    · have hkey : BackEnd.robKey k (heap q) = BackEnd.robKey k (s.heap q) := by
        have := (hsame q).1
        rw [BackEnd.robKey, BackEnd.robKey]
        rw [this]
      refine hkey.trans ?_
      by_cases htk : t = BackEnd.robKey k (s.heap p)
      · subst htk
        simp only [Function.update_self, hr, List.mem_append, List.mem_singleton] at hq
        rcases hq with hq | rfl
        · exact hs.shape.keyed _ ht q hq
        · rfl
      · simp only [Function.update_of_ne htk] at hq
        exact hs.shape.keyed t ht q hq
    · exact (hsame q).2.trans (hs.shape.stores q hq)

end Pushed

/-- An execution keeps the books. -/
theorem Held.execute {k : BackKnobs} {s : BackEnd} (h : Held k s) (p : UopPtr) (e d : ℕ) :
    Held k (s.setUop p { s.heap p with execCycle := e, doneCycle := d }) where
  books := h.books.congr (SameIds.setUop s rfl rfl) rfl rfl rfl
  shape := by
    refine h.shape.congr rfl (fun _ => rfl) rfl fun q _ => ?_
    by_cases hq : q = p
    · subst hq
      simp [BackEnd.setUop]
    · simp [BackEnd.setUop, hq]

/-- A thread starts, on a GPU core with a reorder buffer of its own. -/
theorem startThread_cases {k : BackKnobs} {s s' : BackEnd} {t : ℤ}
    (h : s.startThread k t = some s') : ∃ insts fin,
      s' = { s with instsRetired := insts, threadFinished := fin } ∨
      k.gpu = true ∧ 0 ≤ t ∧ t ∉ s.robs ∧
        s' = { s with
          instsRetired := insts, threadFinished := fin
          rob := Function.update s.rob t Rob.new, robs := s.robs ++ [t] } := by
  unfold BackEnd.startThread at h
  dsimp only at h
  split at h
  · rename_i hgpu
    split at h
    · cases h
    · rename_i hfree
      simp only [not_or, not_lt] at hfree
      exact ⟨_, _, .inr ⟨hgpu, hfree.1, hfree.2.1, (Option.some.inj h).symm⟩⟩
  · exact ⟨_, _, .inl (Option.some.inj h).symm⟩

/-- A thread that starts finds its reorder buffer empty. -/
theorem Held.startThread {k : BackKnobs} {s s' : BackEnd} {t : ℤ} (h : Held k s)
    (hs : s.startThread k t = some s') : Held k s' ∧ inRob s' = inRob s := by
  obtain ⟨insts, fin, rfl | ⟨hgpu, hneg, hmem, rfl⟩⟩ := startThread_cases hs
  · exact ⟨⟨h.books.congr (SameIds.of_heap rfl) rfl rfl rfl,
      h.shape.congr rfl (fun _ => rfl) rfl fun _ _ => ⟨rfl, rfl⟩⟩, rfl⟩
  · have hrob : ∀ u ∈ s.robs, Function.update s.rob t Rob.new u = s.rob u := by
      intro u hu
      have hne : u ≠ t := fun heq => hmem (heq ▸ hu)
      exact Function.update_of_ne hne _ _
    have hin : (s.robs ++ [t]).flatMap (fun u => (Function.update s.rob t Rob.new u).entries) =
        inRob s := by
      have hold : s.robs.flatMap (fun u => (Function.update s.rob t Rob.new u).entries) =
          inRob s := List.flatMap_congr fun u hu => by rw [hrob u hu]
      have hnew : (Function.update s.rob t Rob.new t).entries = [] := by
        rw [Function.update_self]
        rfl
      rw [List.flatMap_append, hold, List.flatMap_singleton, hnew, List.append_nil]
    refine ⟨⟨?_, ?_⟩, hin⟩
    · refine (h.books.perm ?_).congr (SameIds.of_heap rfl) rfl rfl rfl
      change (BackEnd.held s).Perm (s.frontendQ ++
        ((s.robs ++ [t]).flatMap (fun u => (Function.update s.rob t Rob.new u).entries) ++
          s.writeBuffer))
      rw [hin]
      exact List.Perm.refl _
    · refine ⟨?_, ?_, ?_, ?_, h.shape.stores, h.shape.gpu⟩
      · refine List.nodup_append.mpr ⟨h.shape.nodup, List.nodup_singleton t, ?_⟩
        rintro u hu v hv rfl
        exact hmem (List.mem_singleton.mp hv ▸ hu)
      · intro u hu
        rcases List.mem_append.mp hu with hu | hu
        · exact h.shape.nonneg u hu
        · obtain rfl := List.mem_singleton.mp hu
          exact hneg
      · intro hk
        rw [hk] at hgpu
        cases hgpu
      · intro u hu q hq
        rcases List.mem_append.mp hu with hu | hu
        · refine h.shape.keyed u hu q ?_
          simpa [hrob u hu] using hq
        · obtain rfl := List.mem_singleton.mp hu
          simp [Rob.new] at hq

/-! ## Retirement of one uop -/

/-- The test for the end of a thread as the retirement of `p` makes it. -/
def ends (k : BackKnobs) (s : BackEnd) (p : UopPtr) : Bool := (s.countInst p).endsThread k p

/-- Deallocations give back the resources that the uop has, each once. -/
theorem foldlM_dealloc {k : BackKnobs} {p : UopPtr} (l : List PhysRes) (hnd : l.Nodup)
    {s s' : BackEnd}
    (h : l.foldlM (fun s r => if (s.heap p).req r then s.deallocResource k r else some s) s =
      some s') :
    s' = { s with
      free := fun r => s.free r + if r ∈ l ∧ (s.heap p).req r = true then 1 else 0 } := by
  induction l generalizing s with
  | nil =>
      obtain rfl := Option.some.inj h
      simp
  | cons r l ih =>
      rw [List.foldlM_cons] at h
      obtain ⟨hr, hnd⟩ := List.nodup_cons.mp hnd
      obtain ⟨m, hm, h⟩ := Option.bind_eq_some_iff.mp h
      rw [ih hnd h]
      split at hm
      · rename_i hreq
        unfold BackEnd.deallocResource at hm
        split at hm
        · cases hm
        · obtain rfl := Option.some.inj hm
          congr 1
          funext x
          by_cases hx : x = r
          · subst hx
            simp [hr, hreq]
          · simp [hx]
      · rename_i hreq
        obtain rfl := Option.some.inj hm
        congr 1
        funext x
        by_cases hx : x = r
        · subst hx
          simp [hr, hreq]
        · simp [hx]

/-- A release gives back the resources that the uop has. -/
theorem release_eq {k : BackKnobs} {s s' : BackEnd} {p : UopPtr} (h : s.release k p = some s') :
    s' = { s with free := fun r => s.free r + if (s.heap p).req r = true then 1 else 0 } := by
  have hall : ∀ r : PhysRes, r ∈ [PhysRes.lb, .sb, .intReg, .fpReg] := by
    intro r
    cases r <;> simp
  have := foldlM_dealloc _ (by simp) h
  simpa [hall] using this

/-- The state after the common part of a retirement, before the uop is freed. -/
structure Settles (k : BackKnobs) (s s' : BackEnd) (p : UopPtr) : Prop where
  fields : ∃ insts fin, s' =
    { s with
      instsRetired := insts
      threadFinished := fin
      robs := if ends k s p ∧ k.gpu then s.robs.erase (s.heap p).threadId else s.robs
      free := fun r => s.free r + if (s.heap p).req r = true then 1 else 0 }
  insts : ∀ t ≠ (s.heap p).threadId, s'.instsRetired t = s.instsRetired t
  finished : ∀ t ≠ (s.heap p).threadId, s'.threadFinished t = s.threadFinished t

/-- The count of instructions changes nothing else. -/
theorem countInst_eq (s : BackEnd) (p : UopPtr) : ∃ insts,
    s.countInst p = { s with instsRetired := insts } ∧
      ∀ t ≠ (s.heap p).threadId, insts t = s.instsRetired t := by
  unfold BackEnd.countInst
  split
  · exact ⟨_, rfl, fun t ht => Function.update_of_ne ht _ _⟩
  · exact ⟨_, rfl, fun _ _ => rfl⟩

/-- The state in which the resources of the uop are given back. -/
theorem ended_eq (k : BackKnobs) (s : BackEnd) (p : UopPtr) : ∃ insts fin,
    (if (s.countInst p).endsThread k p then (s.countInst p).terminateThread k (s.heap p).threadId
      else s.countInst p) =
      { s with
        instsRetired := insts
        threadFinished := fin
        robs := if ends k s p ∧ k.gpu then s.robs.erase (s.heap p).threadId else s.robs } ∧
      (∀ t ≠ (s.heap p).threadId, insts t = s.instsRetired t) ∧
      ∀ t ≠ (s.heap p).threadId, fin t = s.threadFinished t := by
  obtain ⟨insts, heq, hinsts⟩ := countInst_eq s p
  unfold ends
  by_cases he : (s.countInst p).endsThread k p = true
  · refine ⟨insts, Function.update s.threadFinished (s.heap p).threadId true, ?_, hinsts,
      fun t ht => Function.update_of_ne ht _ _⟩
    simp only [he, if_true, true_and]
    rw [heq]
    rfl
  · refine ⟨insts, s.threadFinished, ?_, hinsts, fun _ _ => rfl⟩
    rw [if_neg he, if_neg (fun hc => he hc.1), heq]

/-- The retirement of a uop settles it, and frees it unless it is a store for the write buffer. -/
theorem retireUop_cases {k : BackKnobs} {s s' : BackEnd} {p : UopPtr}
    (h : s.retireUop k p = some s') : ∃ m, Settles k s m p ∧
      s' = if k.useWb = true ∧ (s.heap p).memType = .st then m else m.freeUopResources p := by
  unfold BackEnd.retireUop at h
  dsimp only at h
  obtain ⟨m, hm, h⟩ := Option.bind_eq_some_iff.mp h
  obtain ⟨insts, fin, hended, hinsts, hfin⟩ := ended_eq k s p
  rw [hended] at hm
  have hrel := release_eq hm
  refine ⟨m, ⟨⟨insts, fin, hrel⟩, ?_, ?_⟩, ?_⟩
  · rw [hrel]
    exact hinsts
  · rw [hrel]
    exact hfin
  · have hmem : (m.heap p).memType = (s.heap p).memType := by rw [hrel]
    rw [hmem] at h
    by_cases hst : k.useWb = true ∧ (s.heap p).memType = .st
    · rw [if_pos hst] at h ⊢
      exact (Option.some.inj h).symm
    · rw [if_neg hst] at h ⊢
      exact (Option.some.inj h).symm

/-- Whether a thread ends depends on the uop and on what is known of its thread. -/
theorem ends_congr {k : BackKnobs} {s s' : BackEnd} {p : UopPtr} (hheap : s'.heap p = s.heap p)
    (hinsts : s'.instsRetired (s.heap p).threadId = s.instsRetired (s.heap p).threadId)
    (hfin : s'.threadFinished (s.heap p).threadId = s.threadFinished (s.heap p).threadId) :
    ends k s' p = ends k s p := by
  unfold ends BackEnd.endsThread BackEnd.countInst
  rw [hheap]
  split
  · simp [hheap, hinsts, hfin]
  · simp [hheap, hinsts, hfin]

/-- The reorder buffer of `t` becomes `r` when `p` is popped; `toWb` says that `p` is put into
the write buffer. -/
def popState (s : BackEnd) (t : ℤ) (r : Rob) (p : UopPtr) (toWb : Bool) : BackEnd :=
  { s with
    rob := Function.update s.rob t r
    popped := s.popped ++ s.numbers p
    writeBuffer := s.writeBuffer ++ if toWb then [p] else [] }

/-- Whether a thread ends does not depend on the uop being popped first. -/
theorem ends_popState (k : BackKnobs) (s : BackEnd) (t : ℤ) (r : Rob) (p : UopPtr)
    (toWb : Bool) : ends k (popState s t r p toWb) p = ends k s p :=
  ends_congr rfl rfl rfl

/-- The uop `p` is popped from the reorder buffer of `t` and retired. -/
structure Leaves (k : BackKnobs) (s s' : BackEnd) (t : ℤ) (p : UopPtr) (rest : List UopPtr)
    (toWb : Bool) : Prop where
  mem : t ∈ s.robs
  front : (s.rob t).entries = p :: rest
  out : ∃ r m, r.entries = rest ∧
    Settles k (popState s t r p toWb) m p ∧
    s' = if k.useWb = true ∧ (s.heap p).memType = .st then m else m.freeUopResources p
  toWb_store : toWb = true → k.gpu = false ∧ k.useWb = true ∧ (s.heap p).memType = .st
  cpu_store : k.gpu = false → k.useWb = true → (s.heap p).memType = .st → toWb = true

/-- What is left in the reorder buffer of the thread: that of a thread that ends on a GPU core
goes. -/
def left (k : BackKnobs) (s : BackEnd) (p : UopPtr) (rest : List UopPtr) : List UopPtr :=
  if ends k s p ∧ k.gpu then [] else rest

/-- What is left is a part of what followed. -/
theorem left_sublist (k : BackKnobs) (s : BackEnd) (p : UopPtr) (rest : List UopPtr) :
    (left k s p rest).Sublist rest := by
  unfold left
  split
  · exact List.nil_sublist _
  · exact List.Sublist.refl _

/-- The state `m` before the uop is freed. -/
structure Middle (k : BackKnobs) (s m : BackEnd) (t : ℤ) (p : UopPtr) (rest : List UopPtr)
    (toWb : Bool) : Prop where
  rob : ∃ r, r.entries = rest ∧ m.rob = Function.update s.rob t r
  robs : m.robs = if ends k s p ∧ k.gpu then s.robs.erase t else s.robs
  heap : m.heap = s.heap
  pool : m.pool = s.pool
  number : m.uniqueUopNum = s.uniqueUopNum
  frontendQ : m.frontendQ = s.frontendQ
  writeBuffer : m.writeBuffer = s.writeBuffer ++ if toWb then [p] else []
  popped : m.popped = s.popped ++ s.numbers p
  released : m.released = s.released
  free : m.free = fun r => s.free r + if (s.heap p).req r = true then 1 else 0
  uopList : m.uopList = s.uopList
  insts : ∀ u ≠ (s.heap p).threadId, m.instsRetired u = s.instsRetired u
  finished : ∀ u ≠ (s.heap p).threadId, m.threadFinished u = s.threadFinished u

/-- A retirement goes through a state in which the uop is popped and not freed. -/
theorem Leaves.middle {k : BackKnobs} {s s' : BackEnd} {t : ℤ} {p : UopPtr} {rest : List UopPtr}
    {toWb : Bool} (h : Leaves k s s' t p rest toWb) (hs : Held k s) :
    ∃ m, Middle k s m t p rest toWb ∧
      s' = if k.useWb = true ∧ (s.heap p).memType = .st then m else m.freeUopResources p := by
  obtain ⟨r, m, hr, hset, hout⟩ := h.out
  obtain ⟨insts, fin, hm⟩ := hset.fields
  have hinsts := hset.insts
  have hfin := hset.finished
  rw [ends_popState] at hm
  refine ⟨m, ?_, hout⟩
  have hkey := hs.shape.keyed t h.mem p (h.front ▸ List.mem_cons_self)
  have hrobs : (if ends k s p = true ∧ k.gpu = true then s.robs.erase (s.heap p).threadId
      else s.robs) = if ends k s p = true ∧ k.gpu = true then s.robs.erase t else s.robs := by
    by_cases hg : k.gpu = true
    · rw [BackEnd.robKey, if_pos hg] at hkey
      rw [hkey]
    · rw [if_neg fun hc => hg hc.2, if_neg fun hc => hg hc.2]
  subst hm
  exact
    { rob := ⟨r, hr, rfl⟩
      robs := hrobs
      heap := rfl
      pool := rfl
      number := rfl
      frontendQ := rfl
      writeBuffer := rfl
      popped := rfl
      released := rfl
      free := rfl
      uopList := rfl
      insts := hinsts
      finished := hfin }

/-- The popped uop was the first of its reorder buffer. -/
theorem Leaves.inRob_perm {k : BackKnobs} {s s' : BackEnd} {t : ℤ} {p : UopPtr}
    {rest : List UopPtr} {toWb : Bool} (h : Leaves k s s' t p rest toWb) :
    (inRob s).Perm (p :: (rest ++ others s t)) := by
  have := inRob_split h.mem
  rwa [h.front] at this

namespace Middle

variable {k : BackKnobs} {s m : BackEnd} {t : ℤ} {p : UopPtr} {rest : List UopPtr} {toWb : Bool}

/-- The reorder buffers after the pop. -/
theorem inRob_perm (h : Middle k s m t p rest toWb) (hs : Held k s) (ht : t ∈ s.robs) :
    (inRob m).Perm (left k s p rest ++ others s t) := by
  obtain ⟨r, hr, hrob⟩ := h.rob
  have hothers : (s.robs.erase t).flatMap (fun u => (m.rob u).entries) = others s t := by
    have := others_setRob (s := s) (t := t) hs.shape.nodup r
    rw [hrob]
    exact this
  unfold inRob left
  rw [h.robs]
  by_cases he : ends k s p = true ∧ k.gpu = true
  · rw [if_pos he, if_pos he, hothers]
    exact List.Perm.refl _
  · rw [if_neg he, if_neg he]
    refine ((List.perm_cons_erase ht).flatMap_right _).trans ?_
    rw [List.flatMap_cons, hothers, hrob, Function.update_self, hr]

/-- The uop leaves the reorder buffer with its identity. -/
theorem books (h : Middle k s m t p rest toWb) (hs : Held k s) (ht : t ∈ s.robs)
    (hin : (inRob s).Perm (p :: (rest ++ others s t))) :
    Books m (p :: (m.frontendQ ++ (inRob m ++ s.writeBuffer))) := by
  have hbefore : (BackEnd.held s).Perm
      (p :: (s.frontendQ ++ ((rest ++ others s t) ++ s.writeBuffer))) := by
    refine ((hin.append_right _).append_left _).trans ?_
    exact List.perm_middle
  have hafter : ((left k s p rest ++ others s t) ++ s.writeBuffer).Sublist
      ((rest ++ others s t) ++ s.writeBuffer) :=
    ((left_sublist k s p rest).append_right _).append_right _
  have hb := (hs.books.perm hbefore).sublist ((hafter.append_left _).cons_cons p)
  have hm := h.inRob_perm hs ht
  rw [h.frontendQ]
  exact (hb.perm (((hm.symm.append_right _).append_left _).cons p)).congr
    (SameIds.of_heap h.heap) h.pool h.number h.released

/-- The lists after the pop. -/
theorem shape (h : Middle k s m t p rest toWb) (hs : Held k s) (hfront : (s.rob t).entries = p :: rest)
    (hst : toWb = true → k.gpu = false ∧ (s.heap p).memType = .st) : Shape k m := by
  obtain ⟨r, hr, hrob⟩ := h.rob
  have hsub : m.robs.Sublist s.robs := by
    rw [h.robs]
    split
    · exact List.erase_sublist
    · exact List.Sublist.refl _
  refine ⟨hs.shape.nodup.sublist hsub, fun u hu => hs.shape.nonneg u (hsub.subset hu), ?_, ?_, ?_, ?_⟩
  · intro hk
    rw [h.robs, if_neg (by simp [hk])]
    exact hs.shape.cpu hk
  · intro u hu q hq
    rw [h.heap]
    refine hs.shape.keyed u (hsub.subset hu) q ?_
    rw [hrob] at hq
    by_cases hut : u = t
    · subst hut
      rw [Function.update_self, hr] at hq
      rw [hfront]
      exact List.mem_cons_of_mem p hq
    · rwa [Function.update_of_ne hut] at hq
  · intro q hq
    rw [h.writeBuffer] at hq
    rw [h.heap]
    rcases List.mem_append.mp hq with hq | hq
    · exact hs.shape.stores q hq
    · cases toWb with
      | false => cases hq
      | true =>
          obtain rfl := List.mem_singleton.mp hq
          exact (hst rfl).2
  · intro hk
    rw [h.writeBuffer, hs.shape.gpu hk]
    cases toWb with
    | false => rfl
    | true =>
        rw [(hst rfl).1] at hk
        cases hk

end Middle

/-! ## Releasing a uop -/

/-- Freeing changes the heap at the objects of the uop, the pool and the list of released
numbers. -/
theorem freeUopResources_fields (s : BackEnd) (p : UopPtr) : ∃ heap pool released,
    s.freeUopResources p = { s with heap := heap, pool := pool, released := released } :=
  ⟨_, _, _, freeUopResources_eq s p⟩

/-- Freeing a uop keeps the ids. -/
theorem freeUopResources_ids (s : BackEnd) (p : UopPtr) : SameIds s (s.freeUopResources p) := by
  intro q
  rw [freeUopResources_eq]
  simp

/-- Freeing a uop touches none of the others. -/
theorem freeUopResources_heap {s : BackEnd} {l : List UopPtr} {p q : UopPtr}
    (h : Books s (p :: l)) (hq : q ∈ l) : (s.freeUopResources p).heap q = s.heap q := by
  rw [freeUopResources_eq]
  exact freed_of_not_mem fun hmem => h.not_mem_own hq ((freeOrder_perm s p).mem_iff.mp hmem)

/-- Freeing a uop releases its numbers. -/
theorem freeUopResources_released (s : BackEnd) (p : UopPtr) :
    (s.freeUopResources p).released.Perm (s.released ++ s.numbers p) := by
  rw [freeUopResources_eq]
  exact ((freeOrder_perm s p).map _).append_left _

/-- The shape of the lists does not depend on the uop that is freed. -/
theorem Shape.free {k : BackKnobs} {s : BackEnd} {l : List UopPtr} {p : UopPtr} (h : Shape k s)
    (hb : Books s (p :: l)) (hl : ∀ q ∈ inRob s ++ s.writeBuffer, q ∈ l) :
    Shape k (s.freeUopResources p) := by
  obtain ⟨heap, pool, released, heq⟩ := freeUopResources_fields s p
  have hheap : ∀ q ∈ inRob s ++ s.writeBuffer, heap q = s.heap q := by
    intro q hq
    have := freeUopResources_heap hb (hl q hq)
    rwa [heq] at this
  rw [heq]
  refine h.congr rfl (fun _ => rfl) rfl fun q hq => ?_
  simp [hheap q hq]

/-- Every number that was popped is released or belongs to the write buffer. -/
def Ledger (s : BackEnd) : Prop :=
  s.popped.Perm (s.released ++ s.writeBuffer.flatMap s.numbers)

/-- The free entries and the uops in the reorder buffers that have one, for each resource.  The
uops before the reorder buffers have none. -/
structure Resources (k : BackKnobs) (s : BackEnd) : Prop where
  counts : ∀ r, s.free r + (inRob s).countP (fun p => (s.heap p).req r) = k.total r
  fresh : ∀ p ∈ s.frontendQ, ∀ r, (s.heap p).req r = false

namespace Leaves

variable {k : BackKnobs} {s s' : BackEnd} {t : ℤ} {p : UopPtr} {rest : List UopPtr} {toWb : Bool}

/-- A retirement keeps the books. -/
theorem held (h : Leaves k s s' t p rest toWb) (hs : Held k s) : Held k s' := by
  obtain ⟨m, hm, rfl⟩ := h.middle hs
  have hin := h.inRob_perm
  have hb := hm.books hs h.mem hin
  have hsh := hm.shape hs h.front fun hw => ⟨(h.toWb_store hw).1, (h.toWb_store hw).2.2⟩
  cases hw : toWb with
  | true =>
      have hst := h.toWb_store hw
      rw [if_pos ⟨hst.2.1, hst.2.2⟩]
      refine ⟨hb.perm ?_, hsh⟩
      have hmove := List.perm_append_singleton p (m.frontendQ ++ (inRob m ++ s.writeBuffer))
      rw [List.append_assoc, List.append_assoc] at hmove
      rw [BackEnd.held, hm.writeBuffer, hw, if_pos rfl]
      exact hmove.symm
  | false =>
      have hwb : m.writeBuffer = s.writeBuffer := by
        rw [hm.writeBuffer, hw]
        simp
      rw [← hwb] at hb
      by_cases hst : k.useWb = true ∧ (s.heap p).memType = .st
      · rw [if_pos hst]
        exact ⟨hb.sublist (List.sublist_cons_self _ _), hsh⟩
      · rw [if_neg hst]
        refine ⟨?_, hsh.free hb fun q hq => List.mem_append_right _ hq⟩
        obtain ⟨heap, pool, released, heq⟩ := freeUopResources_fields m p
        have hfree := hb.free
        rw [heq] at hfree ⊢
        exact hfree

/-- The other uops stay as they are. -/
theorem heap (h : Leaves k s s' t p rest toWb) (hs : Held k s) {q : UopPtr}
    (hq : q ∈ s'.frontendQ ++ inRob s') : s'.heap q = s.heap q := by
  obtain ⟨m, hm, rfl⟩ := h.middle hs
  have hb := hm.books hs h.mem h.inRob_perm
  split at hq
  · rename_i hst
    rw [if_pos hst, hm.heap]
  · rename_i hst
    obtain ⟨_, _, _, heq⟩ := freeUopResources_fields m p
    have hqm : q ∈ m.frontendQ ++ inRob m := by
      rw [heq] at hq
      exact hq
    rw [← List.append_assoc] at hb
    rw [if_neg hst, freeUopResources_heap hb (List.mem_append_left _ hqm), hm.heap]

/-- Unless the uop is a store that no write buffer takes, its numbers are accounted for. -/
theorem ledger (h : Leaves k s s' t p rest toWb) (hs : Held k s) (hl : Ledger s)
    (hkeep : toWb = false → ¬ (k.useWb = true ∧ (s.heap p).memType = .st)) : Ledger s' := by
  obtain ⟨m, hm, rfl⟩ := h.middle hs
  have hnum : m.numbers = s.numbers := (SameIds.of_heap hm.heap).numbers
  unfold Ledger at hl ⊢
  cases hw : toWb with
  | true =>
      have hst := h.toWb_store hw
      rw [if_pos ⟨hst.2.1, hst.2.2⟩, hm.popped, hm.released, hm.writeBuffer, hnum, hw,
        List.flatMap_append, if_pos rfl, List.flatMap_singleton, ← List.append_assoc]
      exact hl.append_right _
  | false =>
      have hwb : m.writeBuffer = s.writeBuffer := by
        rw [hm.writeBuffer, hw]
        simp
      rw [if_neg (hkeep hw)]
      have hids := (freeUopResources_ids m p).numbers
      have hrel := freeUopResources_released m p
      obtain ⟨heap, pool, released, heq⟩ := freeUopResources_fields m p
      rw [heq] at hids hrel ⊢
      change m.popped.Perm (released ++ m.writeBuffer.flatMap _)
      rw [hids, hnum, hm.popped, hwb]
      rw [hm.released, hnum] at hrel
      refine (hl.append_right _).trans ?_
      refine List.Perm.trans ?_ (hrel.symm.append_right _)
      rw [List.append_assoc, List.append_assoc]
      exact List.perm_append_comm.append_left _

/-- The resources of the uop are given back.  Those of the uops behind it are lost when its
thread ends on a GPU core. -/
theorem resources (h : Leaves k s s' t p rest toWb) (hs : Held k s) (hres : Resources k s)
    (hend : k.gpu = true → ends k s p = true → rest = []) : Resources k s' := by
  obtain ⟨m, hm, heq⟩ := h.middle hs
  have hfields : inRob s' = inRob m ∧ s'.free = m.free ∧ s'.frontendQ = m.frontendQ := by
    rw [heq]
    split
    · exact ⟨rfl, rfl, rfl⟩
    · obtain ⟨_, _, _, hfields⟩ := freeUopResources_fields m p
      rw [hfields]
      exact ⟨rfl, rfl, rfl⟩
  constructor
  · intro r
    have hcount : (inRob s').countP (fun q => (s'.heap q).req r) =
        (inRob s').countP (fun q => (s.heap q).req r) :=
      List.countP_congr fun q hq => by rw [h.heap hs (List.mem_append_right _ hq)]
    have hleft : left k s p rest = rest := by
      unfold left
      split
      · rename_i hc
        exact (hend hc.2 hc.1).symm
      · rfl
    have hin := hm.inRob_perm hs h.mem
    rw [hleft] at hin
    have hbefore := hres.counts r
    rw [h.inRob_perm.countP_eq, List.countP_cons] at hbefore
    rw [hcount, hfields.1, hin.countP_eq, hfields.2.1, hm.free]
    dsimp only
    omega
  · intro q hq r
    rw [h.heap hs (List.mem_append_left _ hq)]
    rw [hfields.2.2, hm.frontendQ] at hq
    exact hres.fresh q hq r

end Leaves

end BackEnd

end MacSim.Analysis
