import MacSim.Analysis.PageInvalidation

/-!
# Reading back what was written to a cache

A caller of `access_cache` or `insert_cache` gets a line and writes its data.  The lemmas
here say that a later walk through the set finds this line with these data: rewriting a line
without touching its tag moves no line, and after an insertion that followed a miss the new
line is the one that a walk finds.
-/

set_option autoImplicit false

namespace MacSim.Analysis

open MacSim.Model

variable {δ : Type}

/-- A walk sees only the valid bits and the tags. -/
theorem findIdx_modify (entry : List (CacheEntry δ)) (tag : Addr) (way : ℕ)
    (f : CacheEntry δ → CacheEntry δ)
    (hf : ∀ line, (f line).valid = line.valid ∧ (f line).tag = line.tag) :
    (entry.modify way f).findIdx? (CacheEntry.holds tag) =
      entry.findIdx? (CacheEntry.holds tag) := by
  have hholds (line : CacheEntry δ) : (f line).holds tag = line.holds tag := by
    simp [CacheEntry.holds, hf line]
  induction entry generalizing way with
  | nil => simp
  | cons line rest ih =>
      cases way with
      | zero => simp [List.findIdx?_cons, hholds]
      | succ way => simp [List.findIdx?_cons, ih way]

/-- A walk finds the only way that carries the tag. -/
theorem findIdx_modify_new (entry : List (CacheEntry δ)) (tag : Addr) (way : ℕ)
    (f : CacheEntry δ → CacheEntry δ) (hway : way < entry.length)
    (hnone : ∀ line ∈ entry, line.holds tag = false) (hnew : ∀ line, (f line).holds tag = true) :
    (entry.modify way f).findIdx? (CacheEntry.holds tag) = some way := by
  induction entry generalizing way with
  | nil => simp at hway
  | cons line rest ih =>
      cases way with
      | zero => simp [List.findIdx?_cons, hnew]
      | succ way =>
          have hrest := ih way (by simpa using hway) fun x hx => hnone x (List.mem_cons_of_mem _ hx)
          simp [List.findIdx?_cons, hnone line List.mem_cons_self, hrest]

/-- A line that keeps its tag is found as before. -/
theorem lookup_modifyEntry (c : Cache δ) (l : Slot) (f : CacheEntry δ → CacheEntry δ)
    (hf : ∀ line, (f line).valid = line.valid ∧ (f line).tag = line.tag) (a : Addr) :
    (c.modifyEntry l f).lookup a = c.lookup a := by
  simp only [Cache.lookup, Cache.modifyEntry, Cache.modifySet]
  by_cases hs : (c.param.findTagAndSet a).2 = l.set
  · rw [hs, Function.update_self, findIdx_modify _ _ _ _ hf]
  · rw [Function.update_of_ne hs]

/-- Data are not looked at by a search. -/
theorem lookup_modifyData (c : Cache δ) (l : Slot) (f : δ → δ) (a : Addr) :
    (c.modifyData l f).lookup a = c.lookup a := by
  apply lookup_modifyEntry
  intro line
  exact ⟨rfl, rfl⟩

/-- The data of every line after one line was rewritten. -/
theorem data_modifyEntry (c : Cache δ) (l k : Slot) (f : CacheEntry δ → CacheEntry δ) :
    (c.modifyEntry l f).data? k =
      if k = l then ((c.set k.set).entry[k.way]?).map fun line => (f line).data
      else c.data? k := by
  by_cases hs : k.set = l.set
  · simp only [Cache.data?, Cache.modifyEntry, Cache.modifySet, hs, Function.update_self,
      List.getElem?_modify]
    by_cases hw : l.way = k.way
    · have hk : k = l := by
        cases k
        cases l
        simp_all
      rw [if_pos hk, hw]
      cases (c.set l.set).entry[k.way]? <;> simp
    · have hk : k ≠ l := fun h => hw (h ▸ rfl)
      rw [if_neg hk]
      cases (c.set l.set).entry[k.way]? <;> simp [hw]
  · have hk : k ≠ l := fun h => hs (h ▸ rfl)
    rw [if_neg hk]
    simp only [Cache.data?, Cache.modifyEntry, Cache.modifySet, Function.update_of_ne hs]

/-- Data are changed in one line only. -/
theorem data_modifyData (c : Cache δ) (l k : Slot) (f : δ → δ) :
    (c.modifyData l f).data? k = if k = l then (c.data? k).map f else c.data? k := by
  rw [Cache.modifyData, data_modifyEntry, Cache.data?, Option.map_map]
  rfl

/-- A line that a walk finds has data. -/
theorem data_of_lookup (c : Cache δ) {a : Addr} {l : Slot} (h : c.lookup a = some l) :
    (c.data? l).isSome = true := by
  obtain ⟨way, hway, rfl⟩ := Option.map_eq_some_iff.mp h
  obtain ⟨hlt, -, -⟩ := List.findIdx?_eq_some_iff_getElem.mp hway
  simp [Cache.data?, hlt]

/-! ## Accesses -/

/-- A hit gives the line that a walk finds, and walks find it afterwards. -/
theorem accessCache_hit {c c' : Cache δ} {now : Counter} {a : Addr} {upd : Bool} {l : Slot}
    (h : c.accessCache now a upd = (some l, c')) :
    c'.lookup a = some l ∧ c'.param = c.param := by
  unfold Cache.accessCache at h
  split at h
  · simp at h
  · split at h
    · simp at h
    · rename_i hl
      split at h
      · obtain ⟨h1, rfl⟩ := Prod.mk.inj h
        cases h1
        refine ⟨?_, rfl⟩
        rw [lookup_modifyEntry]
        · exact hl
        · intro line
          exact ⟨rfl, rfl⟩
      · obtain ⟨h1, rfl⟩ := Prod.mk.inj h
        cases h1
        exact ⟨hl, rfl⟩

/-- An access finds and changes no data. -/
theorem accessCache_keeps {c c' : Cache δ} {now : Counter} {a : Addr} {upd : Bool}
    {o : Option Slot} (h : c.accessCache now a upd = (o, c')) (b : Addr) :
    (c'.lookup b).bind c'.data? = (c.lookup b).bind c.data? := by
  unfold Cache.accessCache at h
  split at h
  · obtain ⟨-, rfl⟩ := Prod.mk.inj h
    rfl
  · split at h
    · obtain ⟨-, rfl⟩ := Prod.mk.inj h
      rfl
    · split at h
      · obtain ⟨-, rfl⟩ := Prod.mk.inj h
        rw [lookup_modifyEntry]
        · congr 1
          funext k
          rw [data_modifyEntry]
          split <;> rfl
        · intro line
          exact ⟨rfl, rfl⟩
      · obtain ⟨-, rfl⟩ := Prod.mk.inj h
        rfl

/-- A miss of a cache that is not bypassed is a walk without a find. -/
theorem accessCache_miss {c c' : Cache δ} {now : Counter} {a : Addr} {upd : Bool}
    (h : c.accessCache now a upd = (none, c')) :
    c' = c ∧ (c.param.cacheByPass = false → c.lookup a = none) := by
  unfold Cache.accessCache at h
  split at h
  · rename_i hb
    obtain ⟨-, rfl⟩ := Prod.mk.inj h
    exact ⟨rfl, fun hc => absurd (hb.symm.trans hc) (by decide)⟩
  · split at h
    · rename_i hl
      obtain ⟨-, rfl⟩ := Prod.mk.inj h
      exact ⟨rfl, fun _ => hl⟩
    · split at h <;> simp at h

/-! ## Insertions -/

/-- A counter that is raised changes no parameter. -/
theorem bump_param (n : ℤ) (gpuline : Bool) (c : Cache δ) (i : ℕ) :
    (Cache.bump n gpuline c i).param = c.param := by
  unfold Cache.bump
  split <;> rfl

/-- A counter that is raised changes no line. -/
theorem bump_entry (n : ℤ) (gpuline : Bool) (c : Cache δ) (i j : ℕ) :
    ((Cache.bump n gpuline c i).set j).entry = (c.set j).entry := by
  unfold Cache.bump
  split
  · by_cases hj : j = i
    · subst hj
      simp [Cache.modifySet]
    · simp [Cache.modifySet, hj]
  · by_cases hj : j = i
    · subst hj
      simp [Cache.modifySet]
    · simp [Cache.modifySet, hj]

/-- Choosing a victim moves no line. -/
theorem victimWay_holds {c : Cache δ} {k : CacheKnobs} {i way : ℕ} {gpuline : Bool}
    {s : CacheSet δ} (h : c.victimWay k i gpuline = some (way, s)) (tag : Addr)
    (hnone : ∀ line ∈ (c.set i).entry, line.holds tag = false) :
    ∀ line ∈ s.entry, line.holds tag = false := by
  unfold Cache.victimWay at h
  split at h
  · obtain ⟨w, -, heq⟩ := Option.map_eq_some_iff.mp h
    obtain ⟨-, rfl⟩ := Prod.mk.inj heq
    exact hnone
  · have heq := Option.some.inj h
    unfold Cache.findReplacementLine at heq
    split at heq
    · split at heq
      · obtain ⟨-, rfl⟩ := Prod.mk.inj heq
        exact hnone
      · obtain ⟨-, rfl⟩ := Prod.mk.inj heq
        intro line hline
        obtain ⟨x, hx, rfl⟩ := List.mem_map.mp hline
        exact hnone x hx
    · obtain ⟨-, rfl⟩ := Prod.mk.inj heq
      exact hnone

/-- After a miss, the inserted line is the one that a walk finds. -/
theorem insertCache_lookup {c c' : Cache δ} {k : CacheKnobs} {now : Counter} {a victim : Addr}
    {applId : ℕ} {gpuline : Bool} {l : Slot}
    (h : c.insertCache k now a applId gpuline = some (l, victim, c')) :
    c'.param = c.param ∧ (c.lookup a = none → c'.lookup a = some l) := by
  unfold Cache.insertCache at h
  dsimp only at h
  split at h
  · cases h
  · rename_i way s hv
    split at h
    · cases h
    · rename_i line hline
      obtain ⟨rfl, heq⟩ := Prod.mk.inj (Option.some.inj h)
      obtain ⟨-, rfl⟩ := Prod.mk.inj heq
      set c1 := c.modifySet (c.param.findTagAndSet a).2 fun _ => s with hc1
      set c2 := if line.valid = true then
          c1.updateSetOnReplacement (c.param.findTagAndSet a).2 line.gpuline else c1 with hc2
      have hparam : c2.param = c.param := by
        rw [hc2]
        split
        · exact bump_param _ _ _ _
        · rfl
      have hset : (c2.set (c.param.findTagAndSet a).2).entry = s.entry := by
        rw [hc2]
        split
        · rw [Cache.updateSetOnReplacement, bump_entry]
          simp [hc1, Cache.modifySet]
        · simp [hc1, Cache.modifySet]
      have hparam' : (c2.initializeCacheLine now ⟨(c.param.findTagAndSet a).2, way⟩
          (c.param.findTagAndSet a).1 a applId gpuline).param = c.param := by
        rw [Cache.initializeCacheLine, bump_param]
        exact hparam
      refine ⟨hparam', ?_⟩
      intro hmiss
      have hnone : ∀ x ∈ (c.set (c.param.findTagAndSet a).2).entry,
          x.holds (c.param.findTagAndSet a).1 = false := by
        simpa [Cache.lookup] using hmiss
      have hnone' := victimWay_holds hv _ hnone
      have hway : way < s.entry.length := by
        rw [List.getElem?_eq_some_iff] at hline
        exact hline.1
      simp only [Cache.lookup, hparam']
      rw [Cache.initializeCacheLine, bump_entry]
      simp only [Cache.modifyEntry, Cache.modifySet, Function.update_self, hset]
      rw [findIdx_modify_new _ _ _ _ hway hnone']
      · rfl
      · intro x
        simp [CacheEntry.holds]

end MacSim.Analysis
