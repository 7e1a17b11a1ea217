import MacSim.Analysis.CacheLines
import MacSim.Model.CacheRuns

/-!
# What one cache operation does to the ways

An operation of a cache changes one way, or invalidates all of them.  The specifications here
are what the results about runs of a cache start from.
-/

set_option autoImplicit false

namespace MacSim.Analysis

open MacSim.Model

variable {δ : Type}

/-- What an insertion writes into its way. -/
def insertedLine (p : CacheParam) (now : Counter) (addr : Addr) (applId : ℕ) (gpuline : Bool)
    (line : CacheEntry δ) : CacheEntry δ :=
  { line with
    valid := true, tag := (p.findTagAndSet addr).1, base := addr &&& ~~~p.offsetMask
    accessCounter := 0, lastAccessTime := now, pref := false, skip := false
    applId := applId, gpuline := gpuline }

/-- A line that is changed changes no parameter. -/
theorem modifyEntry_param (c : Cache δ) (l : Slot) (f : CacheEntry δ → CacheEntry δ) :
    (c.modifyEntry l f).param = c.param := rfl

/-- A set that is changed changes no other set. -/
theorem modifySet_set (c : Cache δ) (i j : ℕ) (f : CacheSet δ → CacheSet δ) :
    (c.modifySet i f).set j = if j = i then f (c.set j) else c.set j := by
  unfold Cache.modifySet
  dsimp only
  split
  · next h =>
    subst h
    rw [Function.update_self]
  · next h => rw [Function.update_of_ne h]

/-- A line that is changed changes no other line. -/
theorem modifyEntry_entry (c : Cache δ) (l : Slot) (f : CacheEntry δ → CacheEntry δ) (i : ℕ) :
    ((c.modifyEntry l f).set i).entry =
      if i = l.set then (c.set i).entry.modify l.way f else (c.set i).entry := by
  rw [Cache.modifyEntry, modifySet_set]
  split
  · rfl
  · rfl

/-- An insertion writes one way of the set of the address: the one that the replacement policy
picks. -/
theorem insertCache_ways {c c' : Cache δ} {k : CacheKnobs} {now : Counter} {a victim : Addr}
    {applId : ℕ} {gpuline : Bool} {l : Slot}
    (h : c.insertCache k now a applId gpuline = some (l, victim, c')) :
    ∃ s line, l.set = (c.param.findTagAndSet a).2 ∧
      c.victimWay k l.set gpuline = some (l.way, s) ∧ s.entry[l.way]? = some line ∧
      victim = (if line.valid then line.base else 0) ∧ c'.param = c.param ∧
      (∀ i, (c'.set i).entry =
        if i = l.set then s.entry.modify l.way (insertedLine c.param now a applId gpuline)
        else (c.set i).entry) := by
  unfold Cache.insertCache at h
  dsimp only at h
  split at h
  · cases h
  · rename_i way s hv
    split at h
    · cases h
    · rename_i line hline
      obtain ⟨rfl, heq⟩ := Prod.mk.inj (Option.some.inj h)
      obtain ⟨rfl, rfl⟩ := Prod.mk.inj heq
      refine ⟨s, line, rfl, hv, hline, rfl, ?_, fun i => ?_⟩
      · change (Cache.initializeCacheLine _ _ _ _ _ _ _).param = _
        rw [Cache.initializeCacheLine, bump_param, modifyEntry_param]
        split
        · exact bump_param _ _ _ _
        · rfl
      · have hparam : (if line.valid = true then
            (c.modifySet (c.param.findTagAndSet a).2 fun _ => s).updateSetOnReplacement
              (c.param.findTagAndSet a).2 line.gpuline
            else c.modifySet (c.param.findTagAndSet a).2 fun _ => s).param = c.param := by
          split
          · exact bump_param _ _ _ _
          · rfl
        have hentry : ((if line.valid = true then
            (c.modifySet (c.param.findTagAndSet a).2 fun _ => s).updateSetOnReplacement
              (c.param.findTagAndSet a).2 line.gpuline
            else c.modifySet (c.param.findTagAndSet a).2 fun _ => s).set i).entry =
              if i = (c.param.findTagAndSet a).2 then s.entry else (c.set i).entry := by
          have hset : ((c.modifySet (c.param.findTagAndSet a).2 fun _ => s).set i).entry =
              if i = (c.param.findTagAndSet a).2 then s.entry else (c.set i).entry := by
            rw [modifySet_set]
            split
            · rfl
            · rfl
          split
          · rw [Cache.updateSetOnReplacement, bump_entry, hset]
          · exact hset
        change ((Cache.initializeCacheLine _ _ _ _ _ _ _).set i).entry = _
        rw [Cache.initializeCacheLine, bump_entry, modifyEntry_entry, hentry]
        split
        · unfold insertedLine
          rw [hparam]
        · rfl

/-- An insertion that has a victim succeeds. -/
theorem insertCache_some {c : Cache δ} {k : CacheKnobs} (now : Counter) {a : Addr} (applId : ℕ)
    {g : Bool} {w : ℕ} {s : CacheSet δ} {line : CacheEntry δ}
    (hway : c.victimWay k (c.param.findTagAndSet a).2 g = some (w, s))
    (hline : s.entry[w]? = some line) : ∃ victim c',
      c.insertCache k now a applId g = some (⟨(c.param.findTagAndSet a).2, w⟩, victim, c') := by
  unfold Cache.insertCache
  dsimp only
  rw [hway]
  dsimp only
  rw [hline]
  exact ⟨_, _, rfl⟩

/-- An access sets the access time of the way that it hits. -/
theorem accessCache_ways {c c' : Cache δ} {now : Counter} {a : Addr} {upd : Bool}
    {r : Option Slot} (h : c.accessCache now a upd = (r, c')) :
    c'.param = c.param ∧
      ((c' = c ∧ (upd = true → r = none)) ∨
        ∃ l, r = some l ∧ upd = true ∧ c.lookup a = some l ∧ c' = c.modifyEntry l fun line =>
          { line with pref := false, lastAccessTime := now }) := by
  unfold Cache.accessCache at h
  split at h
  · obtain ⟨rfl, rfl⟩ := Prod.mk.inj h
    exact ⟨rfl, Or.inl ⟨rfl, fun _ => rfl⟩⟩
  · split at h
    · obtain ⟨rfl, rfl⟩ := Prod.mk.inj h
      exact ⟨rfl, Or.inl ⟨rfl, fun _ => rfl⟩⟩
    · next l hl =>
      split at h
      · next hupd =>
        obtain ⟨rfl, rfl⟩ := Prod.mk.inj h
        exact ⟨rfl, Or.inr ⟨l, rfl, hupd, hl, rfl⟩⟩
      · next hupd =>
        obtain ⟨rfl, rfl⟩ := Prod.mk.inj h
        exact ⟨rfl, Or.inl ⟨rfl, fun hu => absurd hu hupd⟩⟩

/-- An invalidation leaves no way valid that was not. -/
theorem invalidateCacheLine_ways [Inhabited δ] (c : Cache δ) (a : Addr) :
    c.invalidateCacheLine a = c ∨ ∃ l, c.lookup a = some l ∧
      c.invalidateCacheLine a = c.modifyEntry l CacheEntry.nullCacheLineFields := by
  unfold Cache.invalidateCacheLine
  split
  · exact Or.inl rfl
  · next l hl => exact Or.inr ⟨l, hl, rfl⟩

/-- A step changes no parameter. -/
theorem step_param [Inhabited δ] {k : CacheKnobs} {now : Counter} {c c' : Cache δ} {op : CacheOp}
    {used : Option Slot} (h : c.step k now op = some (used, c')) : c'.param = c.param := by
  cases op with
  | access addr upd =>
      obtain ⟨-, hcache⟩ := Prod.mk.inj (Option.some.inj h)
      rw [← hcache]
      exact (accessCache_ways rfl).1
  | insert addr applId gpuline =>
      obtain ⟨⟨l, victim, c₁⟩, hins, heq⟩ := Option.map_eq_some_iff.mp h
      cases heq
      obtain ⟨_, _, -, -, -, -, hparam, -⟩ := insertCache_ways hins
      exact hparam
  | invalidateLine addr =>
      cases h
      rcases invalidateCacheLine_ways c addr with hsame | ⟨l, -, hc'⟩
      · rw [hsame]
      · rw [hc', modifyEntry_param]
  | invalidateCache =>
      cases h
      rfl

/-- A run changes no parameter. -/
theorem run_param [Inhabited δ] {k : CacheKnobs} {ops : List (Counter × CacheOp)}
    {c c' : Cache δ} {uses : List (Slot × Counter)} (h : Cache.run k ops c = some (uses, c')) :
    c'.param = c.param := by
  induction ops generalizing c uses with
  | nil =>
      cases h
      rfl
  | cons op ops ih =>
      obtain ⟨⟨used, c₁⟩, hstep, hrest⟩ := Option.bind_eq_some_iff.mp h
      obtain ⟨⟨later, c₂⟩, hlater, heq⟩ := Option.map_eq_some_iff.mp hrest
      cases heq
      rw [ih hlater, step_param hstep]

end MacSim.Analysis
