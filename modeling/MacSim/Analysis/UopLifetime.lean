import MacSim.Analysis.BackEndRuns

/-!
# The lifetime of a uop

A uop that leaves a reorder buffer is released once, with its children, or it is in the write
buffer.  A GPU core with the write buffer switched on is the exception: retirement keeps the
objects of its stores for a write buffer that they never enter.
-/

set_option autoImplicit false

namespace MacSim.Analysis

open MacSim.Model MacSim.Computation

namespace BackEnd

/-- A retirement loses no uop: the list of ready uops of a GPU core is used up in the cycle,
and no store is in it when the write buffer is used. -/
def LosesNone (k : BackKnobs) (s : BackEnd) : BackAct → Prop
  | .retire order => ListFits k s order ∧
      (k.gpu = true → k.useWb = true → ∀ p ∈ s.readyUops order, (s.heap p).memType ≠ .st)
  | _ => True

/-- Every uop that the front end popped is released once: it is where its objects are still in use,
or it has been released, and nothing is released early. -/
structure Lifetimes (s : BackEnd) : Prop where
  /-- The popped uops are those released and those in the write buffer. -/
  accounted : s.popped.Perm (s.released ++ s.writeBuffer.flatMap s.numbers)
  /-- None of them twice. -/
  once : s.popped.Nodup
  /-- A uop in a reorder buffer or in the write buffer is not released, and none of its objects
  is in the pool. -/
  notEarly : ∀ p ∈ inRob s ++ s.writeBuffer,
    (∀ n ∈ s.numbers p, n ∉ s.released) ∧ ∀ q ∈ s.own p, q ∉ s.pool.free
  /-- The write buffer holds stores. -/
  stores : ∀ p ∈ s.writeBuffer, (s.heap p).memType = .st

/-- The ledger and what is held give every uop its lifetime. -/
theorem Held.lifetimes {k : BackKnobs} {s : BackEnd} (h : Held k s) (hl : Ledger s) :
    Lifetimes s where
  accounted := hl
  once := by
    refine hl.nodup_iff.mpr (h.books.nums.sublist ?_)
    have hsub : s.writeBuffer.Sublist (held s) :=
      (List.sublist_append_right (inRob s) s.writeBuffer).trans (List.sublist_append_right _ _)
    exact (hsub.flatMap _).append_left _
  notEarly p hp := by
    have hmem : p ∈ held s := List.mem_append_right _ hp
    constructor
    · intro n hn hrel
      exact (List.nodup_append.mp h.books.nums).2.2 n hrel n (List.mem_flatMap.mpr ⟨p, hmem, hn⟩) rfl
    · intro q hq
      exact h.books.owns.not_free (List.mem_flatMap.mpr ⟨p, hmem, hq⟩)
  stores := h.shape.stores

/-- What every run keeps. -/
def Kept (k : BackKnobs) (I : BackEnd → Prop) (s : BackEnd) : Prop :=
  Held k s ∧ s.uopList = [] ∧ I s

/-- Fetching a uop keeps the ledger. -/
theorem Ledger.fetch {k : BackKnobs} {s : BackEnd} (hs : Held k s) (hl : Ledger s) (n : NewUop) :
    Ledger (s.fetch n) := by
  obtain ⟨-, hg⟩ := hs.fetch n
  obtain ⟨heap, pool, num, heq⟩ := hg.fields
  have hwb : s.writeBuffer.flatMap (s.fetch n).numbers = s.writeBuffer.flatMap s.numbers :=
    List.flatMap_congr fun q hq => hg.numbers (List.mem_append_right _ (List.mem_append_right _ hq))
  have hsame : (s.fetch n).popped = s.popped ∧ (s.fetch n).released = s.released ∧
      (s.fetch n).writeBuffer = s.writeBuffer := by
    refine ⟨?_, ?_, ?_⟩
    · exact (congrArg BackEnd.popped heq :)
    · exact (congrArg BackEnd.released heq :)
    · exact (congrArg BackEnd.writeBuffer heq :)
  unfold Ledger at hl ⊢
  rw [hsame.1, hsame.2.1, hsame.2.2, hwb]
  exact hl

/-- The ledger is read from the ids and the lists of the uops. -/
theorem Ledger.congr {s s' : BackEnd} (h : Ledger s) (hids : SameIds s s')
    (hpop : s'.popped = s.popped) (hrel : s'.released = s.released)
    (hwb : s'.writeBuffer = s.writeBuffer) : Ledger s' := by
  unfold Ledger at h ⊢
  rw [hpop, hrel, hwb, hids.numbers]
  exact h

/-- A step that loses no uop keeps the ledger. -/
theorem Kept.step_ledger {k : BackKnobs} {s s' : BackEnd} {a : BackAct}
    (hs : Kept k Ledger s) (hok : LosesNone k s a) (h : s.step k a = some s') :
    Kept k Ledger s' := by
  obtain ⟨hh, hlist, hl⟩ := hs
  cases a with
  | fetch n =>
      obtain rfl := Option.some.inj h
      obtain ⟨hh', hg⟩ := hh.fetch n
      obtain ⟨_, _, _, heq⟩ := hg.fields
      exact ⟨hh', (congrArg BackEnd.uopList heq).trans hlist, hl.fetch hh n⟩
  | allocate space =>
      rcases allocate_cases h with rfl | ⟨p, rest, hp⟩
      · exact ⟨hh, hlist, hl⟩
      · obtain ⟨_, _, heq, -⟩ := hp.fields
        refine ⟨hp.held hh, by rw [heq, hlist], hl.congr hp.sameIds ?_ ?_ ?_⟩
        · rw [heq]
        · rw [heq]
        · rw [heq]
  | execute p e d =>
      obtain rfl := Option.some.inj h
      exact ⟨hh.execute p e d, hlist, hl.congr (SameIds.setUop s rfl rfl) rfl rfl rfl⟩
  | startThread t =>
      have hs' := (hh.startThread h).1
      obtain ⟨_, _, rfl | ⟨-, -, -, rfl⟩⟩ := startThread_cases h
      · exact ⟨hs', hlist, hl⟩
      · exact ⟨hs', hlist, hl⟩
  | tick =>
      obtain rfl := Option.some.inj h
      exact ⟨⟨hh.books.congr (SameIds.of_heap rfl) rfl rfl rfl,
        hh.shape.congr rfl (fun _ => rfl) rfl fun _ _ => ⟨rfl, rfl⟩⟩, hlist, hl⟩
  | retire order =>
      have h : (if order.Perm s.robs then s.retireCycle k order else none) = some s' := h
      split at h
      · rename_i horder
        obtain ⟨hfit, hst⟩ := hok
        have := retireCycle_rule (I := Ledger)
          (C := fun s p => ¬ (k.useWb = true ∧ (s.heap p).memType = .st))
          (fun _ s s' p rest hh hi hc hleave => hleave.ledger hh hi fun _ => hc)
          (fun hcpu s s' p rest toWb hh hi hleave => hleave.ledger hh hi fun hw hc => by
            rw [hleave.cpu_store hcpu hc.1 hc.2] at hw
            cases hw)
          (fun s l hi => hi)
          (fun s s' q hv hc => by rw [hv.heap]; exact hc)
          (fun s s' hh hi hd => (hh.drainWb hd).2.2.1 hi)
          hh hl hlist horder hfit (fun hgpu q hq hc => hst hgpu hc.1 q hq hc.2) h
        exact ⟨this.1, this.2.2, this.2.1⟩
      · cases h

/-- The ledger is empty at the start. -/
theorem Ledger.new (k : BackKnobs) : Ledger (BackEnd.new k) := List.Perm.refl _

/-- In a run whose retirements lose no uop, every uop that was popped is released once with its
children, or it is a store in the write buffer, and nothing is released earlier.  A CPU core
loses none. -/
theorem uop_lifetimes {k : BackKnobs} {acts : List BackAct} {s : BackEnd}
    (hok : EachStep (BackEnd.step k) (LosesNone k) (BackEnd.new k) acts)
    (hrun : (BackEnd.new k).run k acts = some s) : Lifetimes s := by
  have hkept := EachStep.invariant (I := Kept k Ledger)
    (fun s a _ s' hs ha h => hs.step_ledger ha h) ⟨Held.new k, rfl, Ledger.new k⟩ hok hrun
  exact hkept.1.lifetimes hkept.2.2

/-- The default sizes of a small core, with the write buffer. -/
def smallCore (gpu : Bool) (maxInsts : ℕ) : BackKnobs where
  gpu := gpu
  useWb := true
  wbSize := 64
  wbFifo := false
  acqRel := false
  fenceEnable := false
  width := 1
  robSize := 48
  numThreads := 4
  maxInsts := maxInsts
  total := fun _ => 8

/-- A store that is the first uop of thread 0. -/
def oneStore : NewUop := ⟨1, 0, .st, .other, .notBar, true, false, 0⟩

/-- The store is fetched, allocated, executed and retired. -/
def oneStoreRun : List BackAct :=
  [.startThread 0, .fetch oneStore, .allocate true, .execute 0 1 1, .tick,
    .retire [0], .execute 0 1 1, .retire [0]]

/-- The run of a CPU core, whose drain releases the store. -/
theorem uop_lifetimes_cpu_store : ∃ s, (BackEnd.new (smallCore false 1000)).run
    (smallCore false 1000) oneStoreRun = some s ∧ s.popped = [1] ∧ Lifetimes s := by
  obtain ⟨s, hrun, hpop⟩ : ∃ s, (BackEnd.new (smallCore false 1000)).run
      (smallCore false 1000) oneStoreRun = some s ∧ s.popped = [1] := ⟨_, rfl, rfl⟩
  refine ⟨s, hrun, hpop, uop_lifetimes ?_ hrun⟩
  simp [EachStep, oneStoreRun, LosesNone, ListFits, smallCore]

/-- On a GPU core that uses the write buffer a retired store is neither released nor in the
write buffer. -/
theorem gpu_store_never_released : ∃ s, (BackEnd.new (smallCore true 1000)).run
    (smallCore true 1000) oneStoreRun = some s ∧ ¬ Lifetimes s := by
  obtain ⟨s, hrun, hpop, hrel, hwb⟩ : ∃ s, (BackEnd.new (smallCore true 1000)).run
      (smallCore true 1000) oneStoreRun = some s ∧ s.popped = [1] ∧ s.released = [] ∧
        s.writeBuffer = [] := ⟨_, rfl, rfl, rfl, rfl⟩
  refine ⟨s, hrun, fun h => ?_⟩
  have := h.accounted
  rw [hpop, hrel, hwb] at this
  simpa using this.length_eq

end BackEnd

end MacSim.Analysis
