import MacSim.Analysis.Replacement
import MacSim.Computation.Partial
import Mathlib.Algebra.BigOperators.Group.Finset.Basic

/-!
# Line counters and the static partition

The counters of a cache follow insertions and replacements only.  They are exact along the runs
in which no valid line is invalidated, from a construction that finds zeros in the counters of
its sets.  With exact counters the partitioned search always finds a victim, and no set exceeds
the quota of a type.
-/

set_option autoImplicit false

namespace MacSim.Analysis

open MacSim.Model
open MacSim.Computation

variable {δ : Type}

/-! ## Counting -/

/-- A valid line of the given type. -/
def CountsFor (gpuline : Bool) (line : CacheEntry δ) : Bool := line.valid && line.gpuline == gpuline

/-- The valid lines of a type in a set. -/
def validCount (s : CacheSet δ) (gpuline : Bool) : ℕ := s.entry.countP (CountsFor gpuline)

/-- A line counts for one type. -/
theorem countsFor_type {g g' : Bool} {line : CacheEntry δ} (h : CountsFor g line = true) :
    CountsFor g' line = (g == g') := by
  obtain ⟨hvalid, htype⟩ := Bool.and_eq_true_iff.mp h
  unfold CountsFor
  rw [hvalid, Bool.true_and, beq_iff_eq.mp htype]

/-- The counter of a type in a set. -/
def setCounter (s : CacheSet δ) (gpuline : Bool) : ℤ := if gpuline then s.numGpuLine else s.numCpuLine

/-- The counter of a type in the cache. -/
def cacheCounter (c : Cache δ) (gpuline : Bool) : ℤ :=
  if gpuline then c.numGpuLine else c.numCpuLine

/-- The share of a type in a set. -/
def quota (k : CacheKnobs) (assoc : ℕ) (gpuline : Bool) : ℕ :=
  if gpuline then assoc - k.heteroStaticCpuPartition else k.heteroStaticCpuPartition

/-- The static partition is in force. -/
def partitioned (k : CacheKnobs) (p : CacheParam) : Bool :=
  k.heteroStaticCachePartition && p.enablePartition

/-- A change of one line changes the count by that line. -/
theorem countP_modify (p : CacheEntry δ → Bool) (f : CacheEntry δ → CacheEntry δ)
    {ways : List (CacheEntry δ)} {w : ℕ} {line : CacheEntry δ} (h : ways[w]? = some line) :
    (ways.modify w f).countP p + (if p line then 1 else 0) =
      ways.countP p + if p (f line) then 1 else 0 := by
  induction ways generalizing w with
  | nil => cases h
  | cons x rest ih =>
      cases w with
      | zero =>
          cases h
          rw [List.modify_zero_cons, List.countP_cons, List.countP_cons]
          omega
      | succ w =>
          rw [List.modify_succ_cons, List.countP_cons, List.countP_cons]
          have := ih h
          omega

/-- In a set of valid lines the two kinds make up the whole. -/
theorem validCount_total (s : CacheSet δ) (h : ∀ line ∈ s.entry, line.valid = true)
    (gpuline : Bool) : validCount s gpuline + validCount s (!gpuline) = s.entry.length := by
  unfold validCount
  generalize s.entry = ways at h
  induction ways with
  | nil => rfl
  | cons x rest ih =>
      have hx := h x List.mem_cons_self
      have hrest := ih fun line hline => h line (List.mem_cons_of_mem _ hline)
      rw [List.countP_cons, List.countP_cons, List.length_cons]
      unfold CountsFor at hrest ⊢
      rw [hx]
      cases x.gpuline <;> cases gpuline <;> simp at hrest ⊢ <;> omega

/-! ## The counters of an insertion -/

/-- A bump changes one counter of one set. -/
theorem bump_setCounter (n : ℤ) (g : Bool) (c : Cache δ) (i j : ℕ) (gpuline : Bool) :
    setCounter ((Cache.bump n g c i).set j) gpuline =
      setCounter (c.set j) gpuline + if j = i ∧ g = gpuline then n else 0 := by
  unfold Cache.bump
  cases g with
  | true =>
      rw [if_pos rfl]
      dsimp only
      rw [modifySet_set]
      unfold setCounter
      cases gpuline <;> by_cases hj : j = i <;> simp [hj]
  | false =>
      rw [if_neg Bool.false_ne_true]
      dsimp only
      rw [modifySet_set]
      unfold setCounter
      cases gpuline <;> by_cases hj : j = i <;> simp [hj]

/-- A bump changes one counter of the cache. -/
theorem bump_cacheCounter (n : ℤ) (g : Bool) (c : Cache δ) (i : ℕ) (gpuline : Bool) :
    cacheCounter (Cache.bump n g c i) gpuline =
      cacheCounter c gpuline + if g = gpuline then n else 0 := by
  unfold Cache.bump cacheCounter
  cases g <;> cases gpuline <;> simp [Cache.modifySet]

/-- A change of a line leaves the counters of the sets alone. -/
theorem modifyEntry_setCounter (c : Cache δ) (l : Slot) (f : CacheEntry δ → CacheEntry δ) (i : ℕ)
    (gpuline : Bool) :
    setCounter ((c.modifyEntry l f).set i) gpuline = setCounter (c.set i) gpuline := by
  rw [Cache.modifyEntry, modifySet_set]
  split
  · rfl
  · rfl

/-- The choice of the victim touches no counter. -/
theorem victimWay_counts {c : Cache δ} {k : CacheKnobs} {i w : ℕ} {g : Bool} {s : CacheSet δ}
    (h : c.victimWay k i g = some (w, s)) : (∀ gpuline, setCounter s gpuline =
      setCounter (c.set i) gpuline) ∧ (∀ gpuline, validCount s gpuline =
      validCount (c.set i) gpuline) ∧ s.entry.length = (c.set i).entry.length ∧
      ∀ line ∈ s.entry, line.lastAccessTime = 0 ∨ line ∈ (c.set i).entry := by
  unfold Cache.victimWay at h
  split at h
  · obtain ⟨_, -, heq⟩ := Option.map_eq_some_iff.mp h
    obtain ⟨-, rfl⟩ := Prod.mk.inj heq
    exact ⟨fun _ => rfl, fun _ => rfl, rfl, fun line hline => Or.inr hline⟩
  · have heq := Option.some.inj h
    unfold Cache.findReplacementLine at heq
    split at heq
    · split at heq
      · obtain ⟨-, rfl⟩ := Prod.mk.inj heq
        exact ⟨fun _ => rfl, fun _ => rfl, rfl, fun line hline => Or.inr hline⟩
      · obtain ⟨-, rfl⟩ := Prod.mk.inj heq
        refine ⟨fun _ => rfl, fun gpuline => ?_, List.length_map _, fun line hline => ?_⟩
        · unfold validCount
          rw [List.countP_map]
          rfl
        · obtain ⟨x, -, rfl⟩ := List.mem_map.mp hline
          exact Or.inl rfl
    · obtain ⟨-, rfl⟩ := Prod.mk.inj heq
      exact ⟨fun _ => rfl, fun _ => rfl, rfl, fun line hline => Or.inr hline⟩

/-- Filling a line adds one to the counters of its kind. -/
theorem initializeCacheLine_counters (c : Cache δ) (now : Counter) (l : Slot) (tag addr : Addr)
    (applId : ℕ) (g gpuline : Bool) :
    (∀ i, setCounter ((c.initializeCacheLine now l tag addr applId g).set i) gpuline =
      setCounter (c.set i) gpuline + if i = l.set ∧ g = gpuline then 1 else 0) ∧
    cacheCounter (c.initializeCacheLine now l tag addr applId g) gpuline =
      cacheCounter c gpuline + if g = gpuline then 1 else 0 := by
  unfold Cache.initializeCacheLine
  dsimp only
  refine ⟨fun i => ?_, ?_⟩
  · rw [bump_setCounter, modifyEntry_setCounter]
  · rw [bump_cacheCounter]
    rfl

/-- An insertion counts the new line, and no longer the line it replaces. -/
theorem insertCache_counters {c c' : Cache δ} {k : CacheKnobs} {now : Counter} {a victim : Addr}
    {applId : ℕ} {g : Bool} {l : Slot}
    (h : c.insertCache k now a applId g = some (l, victim, c')) :
    ∃ s line, c.victimWay k l.set g = some (l.way, s) ∧ s.entry[l.way]? = some line ∧
      ∀ gpuline, (∀ i, setCounter (c'.set i) gpuline = setCounter (c.set i) gpuline +
          if i = l.set then
            (if g = gpuline then 1 else 0) - (if CountsFor gpuline line then 1 else 0)
          else 0) ∧
        cacheCounter c' gpuline = cacheCounter c gpuline +
          ((if g = gpuline then 1 else 0) - (if CountsFor gpuline line then 1 else 0)) := by
  unfold Cache.insertCache at h
  dsimp only at h
  split at h
  · cases h
  · rename_i way s hv
    split at h
    · cases h
    · rename_i line hline
      obtain ⟨rfl, heq⟩ := Prod.mk.inj (Option.some.inj h)
      obtain ⟨-, rfl⟩ := Prod.mk.inj heq
      refine ⟨s, line, hv, hline, fun gpuline => ?_⟩
      obtain ⟨hcounts, -, -, -⟩ := victimWay_counts hv
      have hset : ∀ i, setCounter ((c.modifySet (c.param.findTagAndSet a).2 fun _ => s).set i)
          gpuline = setCounter (c.set i) gpuline := fun i => by
        rw [modifySet_set]
        split
        · next hi => rw [hcounts, hi]
        · rfl
      obtain ⟨hins, hinsCache⟩ := initializeCacheLine_counters
        (if line.valid = true then
          (c.modifySet (c.param.findTagAndSet a).2 fun _ => s).updateSetOnReplacement
            (c.param.findTagAndSet a).2 line.gpuline
          else c.modifySet (c.param.findTagAndSet a).2 fun _ => s)
        now ⟨(c.param.findTagAndSet a).2, way⟩ (c.param.findTagAndSet a).1 a applId g gpuline
      refine ⟨fun i => (hins i).trans ?_, hinsCache.trans ?_⟩
      · dsimp only
        split
        · next hvalid =>
          rw [Cache.updateSetOnReplacement, bump_setCounter, hset]
          unfold CountsFor
          rw [hvalid]
          by_cases hi : i = (c.param.findTagAndSet a).2
          · simp only [hi, true_and, if_true, Bool.true_and, beq_iff_eq]
            split <;> split <;> omega
          · simp [hi]
        · next hvalid =>
          rw [hset]
          unfold CountsFor
          rw [Bool.not_eq_true] at hvalid
          rw [hvalid]
          by_cases hi : i = (c.param.findTagAndSet a).2
          · simp [hi]
          · simp [hi]
      · split
        · next hvalid =>
          rw [Cache.updateSetOnReplacement, bump_cacheCounter]
          unfold CountsFor
          rw [hvalid]
          simp only [Bool.true_and, beq_iff_eq]
          change cacheCounter c gpuline + _ + _ = _
          split <;> split <;> omega
        · next hvalid =>
          unfold CountsFor
          rw [Bool.not_eq_true] at hvalid
          rw [hvalid]
          change cacheCounter c gpuline + _ = _
          simp

/-- The valid lines after an insertion. -/
theorem insertCache_validCount {c c' : Cache δ} {k : CacheKnobs} {now : Counter}
    {a victim : Addr} {applId : ℕ} {g : Bool} {l : Slot} {s : CacheSet δ} {line : CacheEntry δ}
    (h : c.insertCache k now a applId g = some (l, victim, c'))
    (hway : c.victimWay k l.set g = some (l.way, s)) (hline : s.entry[l.way]? = some line)
    (gpuline : Bool) (i : ℕ) :
    (validCount (c'.set i) gpuline : ℤ) = validCount (c.set i) gpuline +
      if i = l.set then
        (if g = gpuline then 1 else 0) - (if CountsFor gpuline line then 1 else 0)
      else 0 := by
  obtain ⟨s', line', -, hway', hline', -, -, hentry⟩ := insertCache_ways h
  obtain rfl : s = s' := congrArg Prod.snd (Option.some.inj (hway.symm.trans hway'))
  cases hline.symm.trans hline'
  unfold validCount
  rw [hentry i]
  split
  · next hi =>
    obtain ⟨-, hvalid, -, -⟩ := victimWay_counts hway
    have hsame := hvalid gpuline
    unfold validCount at hsame
    have hcount := countP_modify (CountsFor gpuline) (insertedLine c.param now a applId g) hline
    have hnew : CountsFor gpuline (insertedLine c.param now a applId g line) =
        (g == gpuline) := by
      unfold CountsFor insertedLine
      simp
    rw [hnew, hsame, ← hi] at hcount
    simp only [beq_iff_eq] at hcount
    split at hcount <;> split at hcount <;> simp_all
    omega
  · simp

/-! ## The partitioned search -/

/-- With room for its type the search stops at the first invalid way. -/
theorem sameTypeLoop_room {g : Bool} {ways : List (CacheEntry δ)}
    (h : ∃ line ∈ ways, line.valid = false) (i : ℕ) (ind : Option ℕ) (time : Counter) :
    ∃ j line, Cache.sameTypeLoop g true ways i ind time = some (i + j) ∧ ways[j]? = some line ∧
      line.valid = false := by
  induction ways generalizing i ind time with
  | nil =>
      obtain ⟨line, hmem, -⟩ := h
      cases hmem
  | cons line rest ih =>
      cases hvalid : line.valid with
      | false => exact ⟨0, line, by simp [Cache.sameTypeLoop, hvalid], rfl, hvalid⟩
      | true =>
          have hrest : ∃ x ∈ rest, x.valid = false := by
            obtain ⟨x, hmem, hx⟩ := h
            rcases List.mem_cons.mp hmem with rfl | hmem
            · rw [hvalid] at hx
              cases hx
            · exact ⟨x, hmem, hx⟩
          have hstep : ∃ ind' time', Cache.sameTypeLoop g true (line :: rest) i ind time =
              Cache.sameTypeLoop g true rest (i + 1) ind' time' := by
            by_cases hlt : line.gpuline = g ∧ line.lastAccessTime < time
            · exact ⟨some i, line.lastAccessTime, by simp [Cache.sameTypeLoop, hvalid, hlt]⟩
            · refine ⟨ind, time, ?_⟩
              rw [Cache.sameTypeLoop, if_neg (by simp [hvalid]),
                if_neg (by simpa [hvalid] using hlt)]
          obtain ⟨ind', time', hstep⟩ := hstep
          obtain ⟨j, x, hj, hx, hxv⟩ := ih hrest (i + 1) ind' time'
          refine ⟨j + 1, x, ?_, hx, hxv⟩
          rw [hstep, hj]
          congr 1
          omega

/-- Otherwise the search finds a line of its type. -/
theorem sameTypeLoop_line {g room : Bool} {ways : List (CacheEntry δ)}
    (hfull : room = false ∨ ∀ line ∈ ways, line.valid = true) (i : ℕ) (ind : Option ℕ)
    (time : Counter) :
    (∃ j line, Cache.sameTypeLoop g room ways i ind time = some (i + j) ∧
        ways[j]? = some line ∧ CountsFor g line = true) ∨
      (Cache.sameTypeLoop g room ways i ind time = ind ∧
        ∀ line ∈ ways, CountsFor g line = true → time ≤ line.lastAccessTime) := by
  induction ways generalizing i ind time with
  | nil => exact Or.inr ⟨rfl, fun x hx => by cases hx⟩
  | cons line rest ih =>
      have hrest : room = false ∨ ∀ x ∈ rest, x.valid = true :=
        hfull.imp_right fun h x hx => h x (List.mem_cons_of_mem _ hx)
      have hskip : (!line.valid && room) = false := by
        rcases hfull with hroom | hvalid
        · rw [hroom, Bool.and_false]
        · rw [hvalid line List.mem_cons_self]
          rfl
      by_cases hlt : CountsFor g line = true ∧ line.lastAccessTime < time
      · have hstep : Cache.sameTypeLoop g room (line :: rest) i ind time =
            Cache.sameTypeLoop g room rest (i + 1) (some i) line.lastAccessTime := by
          unfold CountsFor at hlt
          rw [Cache.sameTypeLoop, if_neg (by simp [hskip]), if_pos (by simp [hlt])]
        rw [hstep]
        rcases ih hrest (i + 1) (some i) line.lastAccessTime with ⟨j, x, hj, hx, hxg⟩ | ⟨hind, -⟩
        · refine Or.inl ⟨j + 1, x, ?_, hx, hxg⟩
          rw [hj]
          congr 1
          omega
        · exact Or.inl ⟨0, line, hind, rfl, hlt.1⟩
      · have hstep : Cache.sameTypeLoop g room (line :: rest) i ind time =
            Cache.sameTypeLoop g room rest (i + 1) ind time := by
          unfold CountsFor at hlt
          rw [Cache.sameTypeLoop, if_neg (by simp [hskip]), if_neg (by simpa using hlt)]
        rw [hstep]
        rcases ih hrest (i + 1) ind time with ⟨j, x, hj, hx, hxg⟩ | ⟨hind, hlate⟩
        · refine Or.inl ⟨j + 1, x, ?_, hx, hxg⟩
          rw [hj]
          congr 1
          omega
        · refine Or.inr ⟨hind, fun x hx hxg => ?_⟩
          rcases List.mem_cons.mp hx with rfl | hx
          · exact BitVec.not_lt.mp fun hless => hlt ⟨hxg, hless⟩
          · exact hlate x hx hxg

/-- A set whose counters are exact and within the quotas. -/
structure SetKept (k : CacheKnobs) (p : CacheParam) (s : CacheSet δ) : Prop where
  ways : s.entry.length = p.assoc
  exact : ∀ g, setCounter s g = validCount s g
  quotas : partitioned k p = true → ∀ g, validCount s g ≤ quota k p.assoc g
  times : ∀ line ∈ s.entry, line.lastAccessTime ≠ BitVec.allOnes 64

/-- The partitioned search finds a victim: an invalid way when its type has room, otherwise a
line of its type. -/
theorem SetKept.victim {k : CacheKnobs} {p : CacheParam} {s : CacheSet δ} (h : SetKept k p s)
    (hassoc : 0 < p.assoc) (hpart : partitioned k p = true) {g : Bool}
    (hquota : 0 < quota k p.assoc g) :
    ∃ w line, Cache.findReplacementLineFromSameType k p.assoc s g = some w ∧
      s.entry[w]? = some line ∧
      (CountsFor g line = true ∨ (line.valid = false ∧ validCount s g < quota k p.assoc g)) := by
  have hexact := h.exact g
  have hquotas := h.quotas hpart
  have hroom : decide ((if g = true then s.numGpuLine else s.numCpuLine) <
      (if g = true then (p.assoc : ℤ) - k.heteroStaticCpuPartition
        else (k.heteroStaticCpuPartition : ℤ))) =
      decide (validCount s g < quota k p.assoc g) := by
    refine decide_eq_decide.mpr ?_
    unfold setCounter at hexact
    unfold quota at hquota ⊢
    rw [hexact]
    cases g with
    | true =>
        simp only [if_true] at hquota ⊢
        omega
    | false =>
        simp only [Bool.false_eq_true, if_false]
        omega
  unfold Cache.findReplacementLineFromSameType
  dsimp only
  rw [hroom]
  by_cases hfree : validCount s g < quota k p.assoc g ∧ ∃ line ∈ s.entry, line.valid = false
  · obtain ⟨hlt, hinv⟩ := hfree
    rw [decide_eq_true hlt]
    obtain ⟨j, line, hj, hline, hvalid⟩ := sameTypeLoop_room (g := g) hinv 0 none
      (BitVec.allOnes 64)
    exact ⟨0 + j, line, hj, by rw [Nat.zero_add]; exact hline, Or.inr ⟨hvalid, hlt⟩⟩
  · have hfull : decide (validCount s g < quota k p.assoc g) = false ∨
        ∀ line ∈ s.entry, line.valid = true := by
      by_cases hlt : validCount s g < quota k p.assoc g
      · refine Or.inr fun line hline => ?_
        by_contra hinv
        exact hfree ⟨hlt, line, hline, Bool.not_eq_true _ ▸ hinv⟩
      · exact Or.inl (decide_eq_false hlt)
    have hsome : 0 < validCount s g := by
      rcases hfull with hlt | hall
      · have := of_decide_eq_false hlt
        omega
      · have htotal := validCount_total s hall g
        rw [h.ways] at htotal
        have hg := hquotas g
        have hng := hquotas (!g)
        unfold quota at hquota hg hng
        cases g with
        | true =>
            simp at hquota hg hng htotal
            omega
        | false =>
            simp at hquota hg hng htotal
            omega
    obtain ⟨x, hx, hxg⟩ := List.countP_pos_iff.mp hsome
    rcases sameTypeLoop_line (g := g) hfull 0 none (BitVec.allOnes 64) with
      ⟨j, line, hj, hline, hlg⟩ | ⟨-, hlate⟩
    · exact ⟨0 + j, line, hj, by rw [Nat.zero_add]; exact hline, Or.inl hlg⟩
    · have hle := hlate x hx hxg
      have hne := h.times x hx
      exact absurd (BitVec.allOnes_le_iff.mp hle) hne

/-! ## Runs -/

/-- The accounting of a cache. -/
structure CountersKept (k : CacheKnobs) (p : CacheParam) (c : Cache δ) : Prop where
  param : c.param = p
  kept : ∀ i, SetKept k p (c.set i)
  total : ∀ g, cacheCounter c g = ∑ i ∈ Finset.range p.numSet, (validCount (c.set i) g : ℤ)

/-- An operation that the counters follow: an invalidation finds nothing to invalidate, and an
insertion under the partition is for a type with a share.  The last cycle of the counter is left
out: it is the time that a line has to beat. -/
def Followed (k : CacheKnobs) (c : Cache δ) (now : Counter) : CacheOp → Prop
  | .access _ _ => now ≠ BitVec.allOnes 64
  | .insert _ _ g => now ≠ BitVec.allOnes 64 ∧
      (partitioned k c.param = true → 0 < quota k c.param.assoc g)
  | .invalidateLine addr => c.lookup addr = none
  | .invalidateCache => ∀ i, ∀ line ∈ (c.set i).entry, line.valid = false

/-- The set of an address is a set of the cache. -/
theorem findTagAndSet_lt (p : CacheParam) (hset : 0 < p.numSet) (a : Addr) :
    (p.findTagAndSet a).2 < p.numSet := by
  have hmask : ∀ x : BitVec 64, (x &&& p.setMask).toNat < p.numSet := by
    intro x
    have hle := two_pow_log2Int_le hset
    unfold CacheParam.setMask
    by_cases hbits : log2Int p.numSet < 64
    · rw [toNat_and_mask x hbits]
      have := Nat.mod_lt x.toNat (Nat.two_pow_pos (log2Int p.numSet))
      omega
    · have hpow : 2 ^ 64 ≤ 2 ^ log2Int p.numSet := Nat.pow_le_pow_right (by omega) (by omega)
      have := (x &&& nBitMask (log2Int p.numSet)).isLt
      omega
  unfold CacheParam.findTagAndSet
  split
  · exact hmask _
  · exact hmask _

/-- A new cache has its counters right. -/
theorem CountersKept.new [Inhabited δ] (k : CacheKnobs) (p : CacheParam) :
    CountersKept k p (Cache.new (δ := δ) p fun _ => (0, 0)) where
  param := rfl
  kept := fun i => by
    have hzero : ∀ g, validCount ((Cache.new (δ := δ) p fun _ => (0, 0)).set i) g = 0 := by
      intro g
      refine List.countP_eq_zero.mpr fun line hline => ?_
      obtain rfl := List.eq_of_mem_replicate hline
      exact Bool.false_ne_true
    refine ⟨List.length_replicate, fun g => ?_, fun _ g => ?_, fun line hline => ?_⟩
    · rw [hzero]
      unfold setCounter
      split
      · rfl
      · rfl
    · rw [hzero]
      exact Nat.zero_le _
    · obtain rfl := List.eq_of_mem_replicate hline
      change (0 : BitVec 64) ≠ _
      decide
  total := fun g => by
    have hzero : ∀ i, (validCount ((Cache.new (δ := δ) p fun _ => (0, 0)).set i) g : ℤ) = 0 := by
      intro i
      refine Int.natCast_eq_zero.mpr (List.countP_eq_zero.mpr fun line hline => ?_)
      obtain rfl := List.eq_of_mem_replicate hline
      exact Bool.false_ne_true
    rw [Finset.sum_eq_zero fun i _ => hzero i]
    unfold cacheCounter
    split
    · rfl
    · rfl

/-- A rewrite of one way that changes neither validity nor type. -/
theorem CountersKept.modify {k : CacheKnobs} {p : CacheParam} {c : Cache δ} (h : CountersKept k p c)
    {l : Slot} {f : CacheEntry δ → CacheEntry δ}
    (hf : ∀ line g, CountsFor g (f line) = CountsFor g line)
    (htime : ∀ line, line.lastAccessTime ≠ BitVec.allOnes 64 →
      (f line).lastAccessTime ≠ BitVec.allOnes 64) : CountersKept k p (c.modifyEntry l f) := by
  have hcount : ∀ i g, validCount ((c.modifyEntry l f).set i) g = validCount (c.set i) g := by
    intro i g
    unfold validCount
    rw [modifyEntry_entry]
    split
    · cases hline : (c.set i).entry[l.way]? with
      | none =>
          rw [List.modify_eq_self (List.getElem?_eq_none_iff.mp hline)]
      | some line =>
          have := countP_modify (CountsFor g) f hline
          rw [hf] at this
          omega
    · rfl
  refine ⟨h.param, fun i => ⟨?_, fun g => ?_, fun hpart g => ?_, fun line hline => ?_⟩,
    fun g => ?_⟩
  · rw [modifyEntry_entry]
    split
    · rw [List.length_modify]
      exact (h.kept i).ways
    · exact (h.kept i).ways
  · rw [modifyEntry_setCounter, hcount]
    exact (h.kept i).exact g
  · rw [hcount]
    exact (h.kept i).quotas hpart g
  · rw [modifyEntry_entry] at hline
    split at hline
    · obtain ⟨j, hj⟩ := List.mem_iff_getElem?.mp hline
      rw [List.getElem?_modify] at hj
      obtain ⟨x, hx, heq⟩ := Option.map_eq_some_iff.mp hj
      have hxtime := (h.kept i).times x (List.mem_of_getElem? hx)
      split at heq
      · rw [← heq]
        exact htime x hxtime
      · rw [← heq]
        exact hxtime
    · exact (h.kept i).times line hline
  · change cacheCounter c g = _
    rw [h.total g]
    exact Finset.sum_congr rfl fun i _ => by rw [hcount]

/-- The unpartitioned search ends at a way of the set. -/
theorem findReplacementLine_some (k : CacheKnobs) {s : CacheSet δ} (hne : s.entry ≠ []) :
    ∃ w s' line, Cache.findReplacementLine k s = (w, s') ∧ s'.entry[w]? = some line := by
  obtain ⟨first, rest, hcons⟩ := List.exists_cons_of_ne_nil hne
  unfold Cache.findReplacementLine
  split
  · split
    · next i hi =>
      obtain ⟨hlt, -⟩ := List.findIdx?_eq_some_iff_getElem.mp hi
      exact ⟨i, s, _, rfl, List.getElem?_eq_getElem hlt⟩
    · refine ⟨0, _, { first with lastAccessTime := 0 }, rfl, ?_⟩
      dsimp only
      rw [hcons]
      rfl
  · by_cases hinv : ∃ x ∈ s.entry, x.valid = false
    · obtain ⟨j, line, hj, hline, -⟩ := lruLoop_invalid hinv 0 0 maxInt
      exact ⟨_, s, line, rfl, by rw [hj, Nat.zero_add]; exact hline⟩
    · have hall : ∀ x ∈ s.entry, x.valid = true := fun x hx => by
        by_contra hx'
        exact hinv ⟨x, hx, Bool.not_eq_true _ ▸ hx'⟩
      rcases lruLoop_valid hall 0 0 maxInt with ⟨j, line, hj, hline, -⟩ | ⟨hzero, -⟩
      · exact ⟨_, s, line, rfl, by rw [hj, Nat.zero_add]; exact hline⟩
      · exact ⟨_, s, first, rfl, by rw [hzero, hcons]; rfl⟩

/-- The victim of an insertion that the counters follow. -/
theorem CountersKept.victim {k : CacheKnobs} {p : CacheParam} {c : Cache δ} (h : CountersKept k p c)
    (hassoc : 0 < p.assoc) {g : Bool} (hquota : partitioned k p = true → 0 < quota k p.assoc g)
    (i : ℕ) : ∃ w s line, c.victimWay k i g = some (w, s) ∧ s.entry[w]? = some line ∧
      (partitioned k p = true → CountsFor g line = true ∨
        (line.valid = false ∧ validCount (c.set i) g < quota k p.assoc g)) := by
  unfold Cache.victimWay
  rw [h.param]
  split
  · next hpart =>
    obtain ⟨w, line, hw, hline, hkind⟩ := (h.kept i).victim hassoc hpart (hquota hpart)
    exact ⟨w, c.set i, line, by rw [hw]; rfl, hline, fun _ => hkind⟩
  · next hpart =>
    have hne : (c.set i).entry ≠ [] := by
      intro hnil
      have := (h.kept i).ways
      rw [hnil, List.length_nil] at this
      omega
    obtain ⟨w, s, line, hw, hline⟩ := findReplacementLine_some k hne
    exact ⟨w, s, line, congrArg some hw, hline, fun hp => absurd hp hpart⟩

/-- An insertion that the counters follow succeeds, and they follow it. -/
theorem CountersKept.insert {k : CacheKnobs} {p : CacheParam} {c : Cache δ} (h : CountersKept k p c)
    (hassoc : 0 < p.assoc) (hset : 0 < p.numSet) {now : Counter} (hnow : now ≠ BitVec.allOnes 64)
    {g : Bool} (hquota : partitioned k p = true → 0 < quota k p.assoc g) (a : Addr)
    (applId : ℕ) : ∃ l victim c', c.insertCache k now a applId g = some (l, victim, c') ∧
      CountersKept k p c' := by
  obtain ⟨w, s, line, hway, hline, hkind⟩ :=
    h.victim hassoc hquota (c.param.findTagAndSet a).2
  obtain ⟨victim, c', hins⟩ := insertCache_some now applId hway hline
  refine ⟨_, victim, c', hins, ?_⟩
  obtain ⟨s', line', hcway, hcline, hcounters⟩ := insertCache_counters hins
  obtain rfl : s = s' := congrArg Prod.snd (Option.some.inj (hway.symm.trans hcway))
  cases hline.symm.trans hcline
  have hvalid := insertCache_validCount hins hway hline
  obtain ⟨_, _, -, hway', -, -, hparam, hentry⟩ := insertCache_ways hins
  obtain rfl : s = _ := congrArg Prod.snd (Option.some.inj (hway.symm.trans hway'))
  obtain ⟨-, -, hlen, htimes⟩ := victimWay_counts hway
  have hlt : (c.param.findTagAndSet a).2 < p.numSet := by
    rw [h.param]
    exact findTagAndSet_lt p hset a
  dsimp only at hvalid hcounters hentry
  refine ⟨hparam.trans h.param, fun i => ⟨?_, fun g' => ?_, fun hpart g' => ?_,
    fun x hx => ?_⟩, fun g' => ?_⟩
  · rw [hentry i]
    split
    · rw [List.length_modify, hlen]
      exact (h.kept _).ways
    · exact (h.kept i).ways
  · rw [(hcounters g').1 i, hvalid g' i, (h.kept i).exact g']
  · have hold := (h.kept i).quotas hpart g'
    have hnew := hvalid g' i
    split at hnew
    · next hi =>
      rcases hkind hpart with hsame | ⟨hinv, hroom⟩
      · rw [countsFor_type hsame] at hnew
        simp only [beq_iff_eq, sub_self, add_zero] at hnew
        omega
      · have hno : CountsFor g' line = false := by
          unfold CountsFor
          rw [hinv]
          rfl
        rw [hno, if_neg Bool.false_ne_true, sub_zero] at hnew
        rw [← hi] at hroom
        split at hnew
        · next hg =>
          rw [← hg] at hnew ⊢
          omega
        · omega
    · omega
  · rw [hentry i] at hx
    split at hx
    · obtain ⟨j, hj⟩ := List.mem_iff_getElem?.mp hx
      rw [List.getElem?_modify] at hj
      obtain ⟨y, hy, heq⟩ := Option.map_eq_some_iff.mp hj
      split at heq
      · rw [← heq]
        exact hnow
      · rw [← heq]
        rcases htimes y (List.mem_of_getElem? hy) with hzero | hmem
        · rw [hzero]
          decide
        · exact (h.kept _).times y hmem
    · exact (h.kept i).times x hx
  · rw [(hcounters g').2, h.total g', Finset.sum_congr rfl fun i _ => hvalid g' i,
      Finset.sum_add_distrib, Finset.sum_ite_eq' (Finset.range p.numSet),
      if_pos (Finset.mem_range.mpr hlt)]

/-- An operation that the counters follow. -/
theorem CountersKept.step [Inhabited δ] {k : CacheKnobs} {p : CacheParam} {c : Cache δ}
    (h : CountersKept k p c) (hassoc : 0 < p.assoc) (hset : 0 < p.numSet) {now : Counter}
    {op : CacheOp} (hop : Followed k c now op) :
    ∃ used c', c.step k now op = some (used, c') ∧ CountersKept k p c' := by
  cases op with
  | access addr upd =>
      refine ⟨_, _, rfl, ?_⟩
      generalize hx : c.accessCache now addr upd = x
      rcases (accessCache_ways hx).2 with ⟨hsame, -⟩ | ⟨l, -, -, -, hc'⟩
      · rw [hsame]
        exact h
      · rw [hc']
        exact h.modify (fun _ _ => rfl) fun _ _ => hop
  | insert addr applId g =>
      obtain ⟨hnow, hquota⟩ := hop
      rw [h.param] at hquota
      obtain ⟨l, victim, c', hins, hc'⟩ := h.insert hassoc hset hnow hquota addr applId
      exact ⟨some l, c', by rw [Cache.step, hins]; rfl, hc'⟩
  | invalidateLine addr =>
      have hmiss : c.invalidateCacheLine addr = c := by
        unfold Cache.invalidateCacheLine
        have hlookup : c.lookup addr = none := hop
        rw [hlookup]
      exact ⟨none, _, rfl, by rw [hmiss]; exact h⟩
  | invalidateCache =>
      refine ⟨none, _, rfl, ?_⟩
      have hinv : ∀ i, ∀ line ∈ (c.set i).entry, line.valid = false := hop
      have hcount : ∀ i g, validCount (c.invalidateCache.set i) g = validCount (c.set i) g := by
        intro i g
        have hold : validCount (c.set i) g = 0 := List.countP_eq_zero.mpr fun line hline => by
          unfold CountsFor
          rw [hinv i line hline]
          exact Bool.false_ne_true
        rw [hold]
        refine List.countP_eq_zero.mpr fun line hline => ?_
        obtain ⟨x, -, rfl⟩ := List.mem_map.mp hline
        exact Bool.false_ne_true
      refine ⟨h.param, fun i => ⟨(List.length_map _).trans (h.kept i).ways, fun g => ?_,
        fun hpart g => ?_, fun line hline => ?_⟩, fun g => ?_⟩
      · rw [hcount]
        exact (h.kept i).exact g
      · rw [hcount]
        exact (h.kept i).quotas hpart g
      · obtain ⟨x, hx, rfl⟩ := List.mem_map.mp hline
        exact (h.kept i).times x hx
      · exact (h.total g).trans (Finset.sum_congr rfl fun i _ => by rw [hcount])

/-- A run whose operations are followed keeps the counters right. -/
theorem CountersKept.run [Inhabited δ] {k : CacheKnobs} {p : CacheParam} {c : Cache δ}
    (h : CountersKept k p c) (hassoc : 0 < p.assoc) (hset : 0 < p.numSet)
    {ops : List (Counter × CacheOp)}
    (hops : EachStep (fun c x => (c.step k x.1 x.2).map Prod.snd)
      (fun c x => Followed k c x.1 x.2) c ops) :
    ∃ uses c', Cache.run k ops c = some (uses, c') ∧ CountersKept k p c' := by
  induction ops generalizing c with
  | nil => exact ⟨[], c, rfl, h⟩
  | cons op ops ih =>
      obtain ⟨now, op⟩ := op
      obtain ⟨used, c₁, hstep, hc₁⟩ := h.step hassoc hset hops.1
      obtain ⟨uses, c', hrun, hc'⟩ := ih hc₁ (hops.2 c₁ (congrArg (Option.map Prod.snd) hstep))
      refine ⟨used.toList.map (·, now) ++ uses, c', ?_, hc'⟩
      change (c.step k now op).bind _ = _
      rw [hstep, Option.bind_some, hrun]
      rfl

/-- The counters of a cache and of its sets are the numbers of the valid lines of each type, and
no set has more lines of a type than its share. -/
structure LinesAccounted (k : CacheKnobs) (c : Cache δ) : Prop where
  sets : ∀ i g, setCounter (c.set i) g = validCount (c.set i) g
  cache : ∀ g, cacheCounter c g =
    ∑ i ∈ Finset.range c.param.numSet, (validCount (c.set i) g : ℤ)
  shares : partitioned k c.param = true → ∀ i g, validCount (c.set i) g ≤ quota k c.param.assoc g

/-- A run in which the counters follow every operation, from zeros in the counters of the sets,
never fails an assertion and keeps the accounting. -/
theorem line_accounting [Inhabited δ] (k : CacheKnobs) (p : CacheParam) (junk : ℕ → ℤ × ℤ)
    (hassoc : 0 < p.assoc) (hset : 0 < p.numSet) (hjunk : ∀ i, junk i = (0, 0))
    (ops : List (Counter × CacheOp))
    (hops : EachStep (fun c x => (c.step k x.1 x.2).map Prod.snd)
      (fun c x => Followed k c x.1 x.2) (Cache.new (δ := δ) p junk) ops) :
    ∃ uses c, Cache.run k ops (Cache.new (δ := δ) p junk) = some (uses, c) ∧
      LinesAccounted k c := by
  obtain rfl : junk = fun _ => (0, 0) := funext hjunk
  obtain ⟨uses, c, hrun, hc⟩ := (CountersKept.new k p).run hassoc hset hops
  refine ⟨uses, c, hrun, fun i g => (hc.kept i).exact g, fun g => ?_, fun hpart i g => ?_⟩
  · rw [hc.param]
    exact hc.total g
  · rw [hc.param] at hpart ⊢
    exact (hc.kept i).quotas hpart g

/-- A GPU line in a set that is shared half and half. -/
theorem line_accounting_gpu : ∃ uses c, Cache.run { trueLru with
      heteroStaticCachePartition := true, heteroStaticCpuPartition := 1 }
      [(1, .insert 0 0 true), (2, .insert 64 0 true)]
      (Cache.new (δ := Unit) { twoWays with enablePartition := true } fun _ => (0, 0)) =
        some (uses, c) ∧
      LinesAccounted { trueLru with
        heteroStaticCachePartition := true, heteroStaticCpuPartition := 1 } c :=
  line_accounting _ _ _ (by decide) (by decide) (fun _ => rfl) _
    ⟨⟨by decide, fun _ => by decide⟩, fun _ hstep => by
      cases hstep
      exact ⟨⟨by decide, fun _ => by decide⟩, fun _ _ => trivial⟩⟩

/-- The counters keep a line that has been invalidated. -/
theorem invalidated_line_counted : ∃ uses c,
    Cache.run trueLru [(1, .insert 0 0 false), (2, .invalidateLine 0)]
      (Cache.new (δ := Unit) twoWays fun _ => (0, 0)) = some (uses, c) ∧
      setCounter (c.set 0) false = 1 ∧ validCount (c.set 0) false = 0 :=
  ⟨_, _, rfl, rfl, rfl⟩

end MacSim.Analysis
