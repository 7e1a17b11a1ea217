import MacSim.Analysis.CacheSteps

/-!
# The way that is replaced

Without pseudo-LRU the search starts with `MAX_INT` as the time to beat.  It finds an invalid
way, and the oldest way among those that were used before that cycle.  When every way of a full
set was used later, the search keeps way 0.  Along a run the access times are the cycles of the
last uses, so that the oldest way is the least recently used one.
-/

set_option autoImplicit false

namespace MacSim.Analysis

open MacSim.Model

variable {δ : Type}

/-! ## The search -/

/-- The search stops at the first invalid way. -/
theorem lruLoop_invalid {ways : List (CacheEntry δ)} (h : ∃ line ∈ ways, line.valid = false)
    (i lruInd : ℕ) (lruTime : Counter) : ∃ j line,
    Cache.lruLoop ways i lruInd lruTime = i + j ∧ ways[j]? = some line ∧ line.valid = false := by
  induction ways generalizing i lruInd lruTime with
  | nil =>
      obtain ⟨line, hmem, -⟩ := h
      cases hmem
  | cons line rest ih =>
      cases hvalid : line.valid with
      | false => exact ⟨0, line, by simp [Cache.lruLoop, hvalid], rfl, hvalid⟩
      | true =>
          have hrest : ∃ x ∈ rest, x.valid = false := by
            obtain ⟨x, hmem, hx⟩ := h
            rcases List.mem_cons.mp hmem with rfl | hmem
            · rw [hvalid] at hx
              cases hx
            · exact ⟨x, hmem, hx⟩
          have hstep : ∃ ind time, Cache.lruLoop (line :: rest) i lruInd lruTime =
              Cache.lruLoop rest (i + 1) ind time := by
            by_cases hlt : line.lastAccessTime < lruTime
            · exact ⟨i, line.lastAccessTime, by simp [Cache.lruLoop, hvalid, hlt]⟩
            · exact ⟨lruInd, lruTime, by simp [Cache.lruLoop, hvalid, hlt]⟩
          obtain ⟨ind, time, hstep⟩ := hstep
          obtain ⟨j, x, hj, hx, hxv⟩ := ih hrest (i + 1) ind time
          refine ⟨j + 1, x, ?_, hx, hxv⟩
          rw [hstep, hj]
          omega

/-- Among valid ways the search finds the oldest one that beats the start value, if any. -/
theorem lruLoop_valid {ways : List (CacheEntry δ)} (h : ∀ line ∈ ways, line.valid = true)
    (i lruInd : ℕ) (lruTime : Counter) :
    (∃ j line, Cache.lruLoop ways i lruInd lruTime = i + j ∧ ways[j]? = some line ∧
        line.lastAccessTime < lruTime ∧
        ∀ x ∈ ways, line.lastAccessTime ≤ x.lastAccessTime) ∨
      (Cache.lruLoop ways i lruInd lruTime = lruInd ∧ ∀ x ∈ ways, lruTime ≤ x.lastAccessTime) := by
  induction ways generalizing i lruInd lruTime with
  | nil => exact Or.inr ⟨rfl, fun x hx => by cases hx⟩
  | cons line rest ih =>
      have hvalid : line.valid = true := h line List.mem_cons_self
      have hrest : ∀ x ∈ rest, x.valid = true := fun x hx => h x (List.mem_cons_of_mem _ hx)
      by_cases hlt : line.lastAccessTime < lruTime
      · have hstep : Cache.lruLoop (line :: rest) i lruInd lruTime =
            Cache.lruLoop rest (i + 1) i line.lastAccessTime := by
          simp [Cache.lruLoop, hvalid, hlt]
        rw [hstep]
        rcases ih hrest (i + 1) i line.lastAccessTime with
          ⟨j, x, hj, hx, hless, hmin⟩ | ⟨hind, hmin⟩
        · refine Or.inl ⟨j + 1, x, by rw [hj]; omega, hx, ?_, fun y hy => ?_⟩
          · bv_omega
          · rcases List.mem_cons.mp hy with rfl | hy
            · bv_omega
            · exact hmin y hy
        · refine Or.inl ⟨0, line, hind, rfl, hlt, fun y hy => ?_⟩
          rcases List.mem_cons.mp hy with rfl | hy
          · exact BitVec.le_refl _
          · exact hmin y hy
      · have hstep : Cache.lruLoop (line :: rest) i lruInd lruTime =
            Cache.lruLoop rest (i + 1) lruInd lruTime := by
          simp [Cache.lruLoop, hvalid, hlt]
        rw [hstep]
        rcases ih hrest (i + 1) lruInd lruTime with ⟨j, x, hj, hx, hless, hmin⟩ | ⟨hind, hmin⟩
        · refine Or.inl ⟨j + 1, x, by rw [hj]; omega, hx, hless, fun y hy => ?_⟩
          rcases List.mem_cons.mp hy with rfl | hy
          · bv_omega
          · exact hmin y hy
        · refine Or.inr ⟨hind, fun y hy => ?_⟩
          rcases List.mem_cons.mp hy with rfl | hy
          · exact BitVec.not_lt.mp hlt
          · exact hmin y hy

/-- The way to replace: an invalid one if there is one, otherwise the oldest one. -/
structure Replaces (s : CacheSet δ) (w : ℕ) (line : CacheEntry δ) : Prop where
  way : s.entry[w]? = some line
  invalid : (∃ x ∈ s.entry, x.valid = false) → line.valid = false
  oldest : (∀ x ∈ s.entry, x.valid = true) →
    ∀ x ∈ s.entry, line.lastAccessTime ≤ x.lastAccessTime

/-- The search sees the way to replace: an invalid one, one that was used before `MAX_INT`, or
way 0 is the oldest one. -/
def SearchSees (s : CacheSet δ) : Prop :=
  (∃ x ∈ s.entry, x.valid = false) ∨ (∃ x ∈ s.entry, x.lastAccessTime < maxInt) ∨
    ∀ first ∈ s.entry.head?, ∀ x ∈ s.entry, first.lastAccessTime ≤ x.lastAccessTime

/-- The search finds the way to replace exactly if it sees it. -/
theorem findReplacementLine_iff {k : CacheKnobs} (hlru : k.usePseudoLru = false)
    {s : CacheSet δ} (hne : s.entry ≠ []) :
    (∃ line, Replaces s (Cache.findReplacementLine k s).1 line) ↔ SearchSees s := by
  have hloop : (Cache.findReplacementLine k s).1 = Cache.lruLoop s.entry 0 0 maxInt := by
    rw [Cache.findReplacementLine, if_neg (by rw [hlru]; exact Bool.false_ne_true)]
  rw [hloop]
  by_cases hinv : ∃ x ∈ s.entry, x.valid = false
  · refine iff_of_true ?_ (Or.inl hinv)
    obtain ⟨j, line, hj, hway, hline⟩ := lruLoop_invalid hinv 0 0 maxInt
    refine ⟨line, by rw [hj, Nat.zero_add]; exact hway, fun _ => hline, fun hall => ?_⟩
    have := hall line (List.mem_of_getElem? hway)
    rw [hline] at this
    cases this
  · have hall : ∀ x ∈ s.entry, x.valid = true := fun x hx => by
      by_contra hx'
      exact hinv ⟨x, hx, Bool.not_eq_true _ ▸ hx'⟩
    rcases lruLoop_valid hall 0 0 maxInt with ⟨j, line, hj, hway, hlt, hmin⟩ | ⟨hzero, hlate⟩
    · refine iff_of_true ⟨line, ?_, fun h => absurd h hinv, fun _ => hmin⟩
        (Or.inr (Or.inl ⟨line, List.mem_of_getElem? hway, hlt⟩))
      rw [hj, Nat.zero_add]
      exact hway
    · rw [hzero]
      constructor
      · rintro ⟨line, hway, -, hold⟩
        refine Or.inr (Or.inr fun first hfirst => ?_)
        rw [List.head?_eq_getElem?] at hfirst
        rw [hway] at hfirst
        cases hfirst
        exact hold hall
      · rintro (h | ⟨x, hx, hlt⟩ | hold)
        · exact absurd h hinv
        · have := hlate x hx
          exact absurd hlt (BitVec.not_lt.mpr this)
        · obtain ⟨first, rest, hcons⟩ := List.exists_cons_of_ne_nil hne
          refine ⟨first, by rw [hcons]; rfl, fun h => absurd h hinv, fun _ => ?_⟩
          exact hold first (by rw [hcons]; rfl)

/-! ## Runs -/

/-- Every other line of a set of `n` ways has been used after the last use of way `w`. -/
def LeastRecent (log : List (Slot × Counter)) (i n w : ℕ) : Prop :=
  ∀ w' < n, w' ≠ w → ∃ t', (⟨i, w'⟩, t') ∈ log ∧ ∀ t, (⟨i, w⟩, t) ∈ log → t < t'

/-- The access time of a valid way is the cycle of its last use. -/
def UsesLogged (c : Cache δ) (log : List (Slot × Counter)) : Prop :=
  ∀ i w line, (c.set i).entry[w]? = some line → line.valid = true →
    (⟨i, w⟩, line.lastAccessTime) ∈ log ∧ ∀ t, (⟨i, w⟩, t) ∈ log → t ≤ line.lastAccessTime

/-- A new cache has no use logged. -/
theorem UsesLogged.new [Inhabited δ] (param : CacheParam) (junk : ℕ → ℤ × ℤ) :
    UsesLogged (Cache.new (δ := δ) param junk) [] := by
  intro i w line hline hvalid
  obtain rfl := List.eq_of_mem_replicate (List.mem_of_getElem? hline)
  cases hvalid

/-- Valid ways that keep their access times. -/
theorem UsesLogged.keep {c c' : Cache δ} {log : List (Slot × Counter)} (h : UsesLogged c log)
    (hkeep : ∀ (i w : ℕ) (line : CacheEntry δ), (c'.set i).entry[w]? = some line → line.valid = true →
      ∃ old : CacheEntry δ, (c.set i).entry[w]? = some old ∧ old.valid = true ∧
        old.lastAccessTime = line.lastAccessTime) : UsesLogged c' log := by
  intro i w line hline hvalid
  obtain ⟨old, hold, hov, htime⟩ := hkeep i w line hline hvalid
  rw [← htime]
  exact h i w old hold hov

/-- A way that is used at a later cycle. -/
theorem UsesLogged.use {c c' : Cache δ} {log : List (Slot × Counter)} {l : Slot} {now : Counter}
    {f : CacheEntry δ → CacheEntry δ} (h : UsesLogged c log) (hnow : ∀ x ∈ log, x.2 < now)
    (hf : ∀ line, (f line).lastAccessTime = now)
    (hentry : ∀ i, (c'.set i).entry =
      if i = l.set then (c.set i).entry.modify l.way f else (c.set i).entry) :
    UsesLogged c' (log ++ [(l, now)]) := by
  intro i w line hline hvalid
  rw [hentry i] at hline
  by_cases hl : (⟨i, w⟩ : Slot) = l
  · subst hl
    rw [if_pos rfl, List.getElem?_modify_eq] at hline
    obtain ⟨old, -, rfl⟩ := Option.map_eq_some_iff.mp hline
    rw [hf]
    refine ⟨List.mem_append_right _ (List.mem_singleton.mpr rfl), fun t ht => ?_⟩
    rcases List.mem_append.mp ht with ht | ht
    · have hlt := hnow _ ht
      exact BitVec.le_of_lt hlt
    · cases List.mem_singleton.mp ht
      exact BitVec.le_refl _
  · have hsame : (c.set i).entry[w]? = some line := by
      split at hline
      · next hi =>
        have hw : ¬ l.way = w := fun hw => hl (by rw [hi, ← hw])
        rw [List.getElem?_modify] at hline
        simpa [hw] using hline
      · exact hline
    obtain ⟨hmem, hlast⟩ := h i w line hsame hvalid
    refine ⟨List.mem_append_left _ hmem, fun t ht => ?_⟩
    rcases List.mem_append.mp ht with ht | ht
    · exact hlast t ht
    · exact absurd (congrArg Prod.fst (List.mem_singleton.mp ht)) hl

/-- Without pseudo-LRU the choice of the victim leaves the set as it is. -/
theorem victimWay_set {c : Cache δ} {k : CacheKnobs} (hlru : k.usePseudoLru = false) {i w : ℕ}
    {gpuline : Bool} {s : CacheSet δ} (h : c.victimWay k i gpuline = some (w, s)) :
    s = c.set i := by
  unfold Cache.victimWay at h
  split at h
  · obtain ⟨_, -, heq⟩ := Option.map_eq_some_iff.mp h
    exact (congrArg Prod.snd heq).symm
  · rw [Cache.findReplacementLine, if_neg (by rw [hlru]; exact Bool.false_ne_true)] at h
    exact (congrArg Prod.snd (Option.some.inj h)).symm

/-- The log of one operation. -/
theorem UsesLogged.step [Inhabited δ] {k : CacheKnobs} (hlru : k.usePseudoLru = false)
    {c c' : Cache δ} {log : List (Slot × Counter)} {now : Counter} {op : CacheOp}
    {used : Option Slot} (h : UsesLogged c log) (hnow : ∀ x ∈ log, x.2 < now)
    (hstep : c.step k now op = some (used, c')) :
    UsesLogged c' (log ++ used.toList.map (·, now)) := by
  cases op with
  | access addr upd =>
      obtain ⟨hused, hcache⟩ := Prod.mk.inj (Option.some.inj hstep)
      generalize hx : c.accessCache now addr upd = x at hused hcache
      rcases (accessCache_ways hx).2 with
        ⟨hsame, hnone⟩ | ⟨l, hr, hupd, -, hc'⟩
      · have hnothing : used = none := by
          rw [← hused]
          split
          · next hu => exact hnone hu
          · rfl
        rw [hnothing, ← hcache, hsame]
        simpa using h
      · rw [if_pos hupd, hr] at hused
        rw [← hused, ← hcache, hc']
        exact h.use hnow (fun _ => rfl) (modifyEntry_entry c l _)
  | insert addr applId gpuline =>
      obtain ⟨⟨l, victim, c₁⟩, hins, heq⟩ := Option.map_eq_some_iff.mp hstep
      cases heq
      obtain ⟨s, line, -, hway, -, -, -, hentry⟩ := insertCache_ways hins
      obtain rfl := victimWay_set hlru hway
      refine h.use (l := l) hnow
        (f := insertedLine c.param now addr applId gpuline) (fun _ => rfl) fun i => ?_
      rw [hentry i]
      split
      · next hi => rw [hi]
      · rfl
  | invalidateLine addr =>
      cases hstep
      rw [Option.toList_none, List.map_nil, List.append_nil]
      rcases invalidateCacheLine_ways c addr with hsame | ⟨l, -, hc'⟩
      · rw [hsame]
        exact h
      · rw [hc']
        refine h.keep fun i w line hline hvalid => ?_
        rw [modifyEntry_entry] at hline
        split at hline
        · rw [List.getElem?_modify] at hline
          obtain ⟨old, hold, heq⟩ := Option.map_eq_some_iff.mp hline
          split at heq
          · subst heq
            cases hvalid
          · subst heq
            exact ⟨old, hold, hvalid, rfl⟩
        · exact ⟨line, hline, hvalid, rfl⟩
  | invalidateCache =>
      cases hstep
      rw [Option.toList_none, List.map_nil, List.append_nil]
      refine h.keep fun i w line hline hvalid => ?_
      change ((c.set i).entry.map _)[w]? = _ at hline
      rw [List.getElem?_map] at hline
      obtain ⟨old, -, rfl⟩ := Option.map_eq_some_iff.mp hline
      cases hvalid

/-- The log of a run, and its cycles go up. -/
theorem UsesLogged.run [Inhabited δ] {k : CacheKnobs} (hlru : k.usePseudoLru = false)
    {ops : List (Counter × CacheOp)} (hops : (ops.map (·.1)).Pairwise (· < ·)) {c c' : Cache δ}
    {log uses : List (Slot × Counter)} (h : UsesLogged c log)
    (hlog : (log.map (·.2)).Pairwise (· < ·))
    (hafter : ∀ x ∈ log, ∀ op ∈ ops, x.2 < op.1)
    (hrun : Cache.run k ops c = some (uses, c')) :
    UsesLogged c' (log ++ uses) ∧ ((log ++ uses).map (·.2)).Pairwise (· < ·) := by
  induction ops generalizing c log uses with
  | nil =>
      cases hrun
      rw [List.append_nil]
      exact ⟨h, hlog⟩
  | cons op ops ih =>
      obtain ⟨now, op⟩ := op
      obtain ⟨⟨used, c₁⟩, hstep, hrest⟩ := Option.bind_eq_some_iff.mp hrun
      obtain ⟨⟨later, c₂⟩, hlater, heq⟩ := Option.map_eq_some_iff.mp hrest
      cases heq
      obtain ⟨hnow, hops⟩ := List.pairwise_cons.mp hops
      have hbefore : ∀ x ∈ log, x.2 < now := fun x hx =>
        hafter x hx (now, op) List.mem_cons_self
      have hused : ∀ x ∈ used.toList.map (·, now), x.2 = now := fun x hx => by
        obtain ⟨_, -, rfl⟩ := List.mem_map.mp hx
        rfl
      have hone : (used.toList.map fun l => (l, now)).map (·.2) = [] ∨
          (used.toList.map fun l => (l, now)).map (·.2) = [now] := by
        cases used with
        | none => exact Or.inl rfl
        | some l => exact Or.inr rfl
      rw [← List.append_assoc]
      refine ih hops (h.step hlru hbefore hstep) ?_ ?_ hlater
      · rw [List.map_append, List.pairwise_append]
        refine ⟨hlog, ?_, fun x hx y hy => ?_⟩
        · rcases hone with hone | hone
          · rw [hone]
            exact List.Pairwise.nil
          · rw [hone]
            exact List.pairwise_singleton _ _
        · obtain ⟨a, ha, rfl⟩ := List.mem_map.mp hx
          obtain ⟨b, hb, rfl⟩ := List.mem_map.mp hy
          rw [hused b hb]
          exact hbefore a ha
      · intro x hx later' hmem
        rcases List.mem_append.mp hx with hx | hx
        · exact hafter x hx later' (List.mem_cons_of_mem _ hmem)
        · rw [hused x hx]
          exact hnow _ (List.mem_map_of_mem hmem)

/-- Cycles that go up name their uses. -/
theorem slot_unique {log : List (Slot × Counter)} (hlog : (log.map (·.2)).Pairwise (· < ·))
    {a b : Slot} {t : Counter} (ha : (a, t) ∈ log) (hb : (b, t) ∈ log) : a = b := by
  induction log with
  | nil => cases ha
  | cons x log ih =>
      obtain ⟨hx, hlog⟩ := List.pairwise_cons.mp hlog
      have hlater : ∀ s, (s, x.2) ∉ log := fun s hs =>
        absurd (hx _ (List.mem_map_of_mem hs)) (BitVec.lt_irrefl _)
      rcases List.mem_cons.mp ha with ha' | ha'
      · rcases List.mem_cons.mp hb with hb' | hb'
        · exact congrArg Prod.fst (ha'.trans hb'.symm)
        · rw [← ha'] at hlater
          exact absurd hb' (hlater b)
      · rcases List.mem_cons.mp hb with hb' | hb'
        · rw [← hb'] at hlater
          exact absurd ha' (hlater a)
        · exact ih hlog ha' hb'

/-- In a full set the least recently used way is the oldest one. -/
theorem UsesLogged.leastRecent_iff {c : Cache δ} {log : List (Slot × Counter)} (h : UsesLogged c log)
    (hlog : (log.map (·.2)).Pairwise (· < ·)) {i w : ℕ} {line : CacheEntry δ}
    (hall : ∀ x ∈ (c.set i).entry, x.valid = true) (hline : (c.set i).entry[w]? = some line) :
    LeastRecent log i (c.set i).entry.length w ↔
      ∀ x ∈ (c.set i).entry, line.lastAccessTime ≤ x.lastAccessTime := by
  obtain ⟨hmem, hlast⟩ := h i w line hline (hall line (List.mem_of_getElem? hline))
  constructor
  · intro hleast x hx
    obtain ⟨w', hw', hget⟩ := List.mem_iff_getElem.mp hx
    have hget' : (c.set i).entry[w']? = some x := by
      rw [List.getElem?_eq_getElem hw', hget]
    by_cases hsame : w' = w
    · subst hsame
      rw [hline] at hget'
      cases hget'
      exact BitVec.le_refl _
    · obtain ⟨t', ht', hafter⟩ := hleast w' hw' hsame
      have hlt := hafter _ hmem
      have hle := (h i w' x hget' (hall x hx)).2 t' ht'
      bv_omega
  · intro hold w' hw' hne
    obtain ⟨x, hx⟩ : ∃ x, (c.set i).entry[w']? = some x := ⟨_, List.getElem?_eq_getElem hw'⟩
    have hxmem := List.mem_of_getElem? hx
    obtain ⟨hmem', -⟩ := h i w' x hx (hall x hxmem)
    refine ⟨x.lastAccessTime, hmem', fun t ht => ?_⟩
    have hle := hold x hxmem
    have htle := hlast t ht
    have hdiff : line.lastAccessTime ≠ x.lastAccessTime := fun heq => by
      rw [heq] at hmem
      exact hne (congrArg Slot.way (slot_unique hlog hmem' hmem))
    bv_omega

/-- The replacement of a set picks an invalid way or the oldest one, and an eviction in a run
hits the least recently used line, exactly if the search sees it: some way was used before cycle
`MAX_INT`, or way 0 is the oldest one. -/
theorem lru_replacement_iff [Inhabited δ] (k : CacheKnobs) (hlru : k.usePseudoLru = false) :
    (∀ s : CacheSet δ, s.entry ≠ [] →
      ((∃ line, Replaces s (Cache.findReplacementLine k s).1 line) ↔ SearchSees s)) ∧
    ∀ (param : CacheParam) (junk : ℕ → ℤ × ℤ) (ops : List (Counter × CacheOp))
      (log : List (Slot × Counter)) (c c' : Cache δ) (now : Counter) (addr victim : Addr)
      (applId : ℕ) (gpuline : Bool) (l : Slot),
      (k.heteroStaticCachePartition && param.enablePartition) = false →
      (ops.map (·.1)).Pairwise (· < ·) →
      Cache.run k ops (Cache.new param junk) = some (log, c) →
      c.insertCache k now addr applId gpuline = some (l, victim, c') →
      (∀ line, (c.set l.set).entry[l.way]? = some line → line.valid = true) →
      (LeastRecent log l.set (c.set l.set).entry.length l.way ↔ SearchSees (c.set l.set)) := by
  refine ⟨fun s hne => findReplacementLine_iff hlru hne, ?_⟩
  intro param junk ops log c c' now addr victim applId gpuline l hpart hops hrun hins hevict
  obtain ⟨hlogged, htimes⟩ := (UsesLogged.new param junk).run hlru hops List.Pairwise.nil
    (fun x hx => by cases hx) hrun
  rw [List.nil_append] at hlogged htimes
  have hparam := run_param hrun
  obtain ⟨s, line, hset, hway, hline, -, -, -⟩ := insertCache_ways hins
  obtain rfl := victimWay_set hlru hway
  unfold Cache.victimWay at hway
  rw [if_neg (by rw [hparam]; exact hpart ▸ Bool.false_ne_true)] at hway
  have hfind : (Cache.findReplacementLine k (c.set l.set)).1 = l.way :=
    congrArg Prod.fst (Option.some.inj hway)
  have hne : (c.set l.set).entry ≠ [] := by
    intro hnil
    rw [hnil] at hline
    cases hline
  have hiff := findReplacementLine_iff hlru hne
  rw [hfind] at hiff
  have hvalid := hevict line hline
  have hall : ∀ x ∈ (c.set l.set).entry, x.valid = true := by
    intro x hx
    by_contra hx'
    rw [Bool.not_eq_true] at hx'
    obtain ⟨line', hreplaces⟩ := hiff.mpr (Or.inl ⟨x, hx, hx'⟩)
    have hsame := hline.symm.trans hreplaces.way
    cases hsame
    rw [hreplaces.invalid ⟨x, hx, hx'⟩] at hvalid
    cases hvalid
  rw [hlogged.leastRecent_iff htimes hall hline, ← hiff]
  constructor
  · intro hold
    refine ⟨line, hline, ?_, fun _ => hold⟩
    rintro ⟨x, hx, hx'⟩
    rw [hall x hx] at hx'
    cases hx'
  · rintro ⟨line', hreplaces⟩
    have hsame := hline.symm.trans hreplaces.way
    cases hsame
    exact hreplaces.oldest hall

/-- One set of two ways with lines of 64 bytes. -/
def twoWays : CacheParam :=
  { numSet := 1, assoc := 2, lineSize := 64, bankNum := 1, cacheByPass := false
    enablePartition := false, numTiles := 1, interleaveFactor := 64 }

/-- True LRU without a partition. -/
def trueLru : CacheKnobs :=
  { usePseudoLru := false, heteroStaticCachePartition := false, heteroStaticCpuPartition := 0 }

/-- Two lines are inserted and the first one is used again. -/
def reuseFirst (start : Counter) : List (Counter × CacheOp) :=
  [(start, .insert 0 0 false), (start + 1, .insert 64 0 false), (start + 2, .access 0 true)]

/-- A run in the first cycles. -/
theorem lru_replacement_iff_reuse : ∃ (log : List (Slot × Counter)) (c : Cache Unit),
    Cache.run trueLru (reuseFirst 1) (Cache.new twoWays fun _ => (0, 0)) = some (log, c) ∧
      (LeastRecent log 0 2 1 ↔ SearchSees (c.set 0)) := by
  refine ⟨_, _, rfl, ?_⟩
  refine (lru_replacement_iff (δ := Unit) trueLru rfl).2 twoWays (fun _ => (0, 0)) (reuseFirst 1)
    _ _ _ 4 128 _ 0 false ⟨0, 1⟩ rfl (by decide) rfl rfl fun line hline => ?_
  cases hline
  rfl

/-- After cycle `MAX_INT` the line that was used last is evicted. -/
theorem lru_evicts_last_used : ∃ (log : List (Slot × Counter)) (c c' : Cache Unit)
    (victim : Addr) (l : Slot),
    Cache.run trueLru (reuseFirst 2147483648) (Cache.new twoWays fun _ => (0, 0)) =
        some (log, c) ∧
      c.insertCache trueLru 2147483651 128 0 false = some (l, victim, c') ∧
      ¬ LeastRecent log l.set 2 l.way := by
  refine ⟨[(⟨0, 0⟩, 2147483648), (⟨0, 1⟩, 2147483649), (⟨0, 0⟩, 2147483650)], _, _, _, ⟨0, 0⟩,
    rfl, rfl, fun hleast => ?_⟩
  obtain ⟨t, ht, hafter⟩ := hleast 1 (by decide) (by decide)
  have htime : t = 2147483649 := by simpa using ht
  have hlast := hafter 2147483650 (by simp)
  rw [htime] at hlast
  revert hlast
  decide

end MacSim.Analysis
