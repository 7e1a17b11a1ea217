import MacSim.Analysis.Replacement
import MacSim.Computation.Partial
import MacSim.Model.CacheUsers

/-!
# One line for a tag

An insertion does not look for its line.  No set gets two valid ways with one tag as long as
every insertion follows a lookup that could find the line: a bypassed cache finds none, and the
constant and texture caches do not look.
-/

set_option autoImplicit false

namespace MacSim.Analysis

open MacSim.Model
open MacSim.Computation

variable {δ : Type}

/-- No set has two valid ways with one tag. -/
def UniqueLines (c : Cache δ) : Prop :=
  ∀ (i w w' : ℕ) (x y : CacheEntry δ), (c.set i).entry[w]? = some x → (c.set i).entry[w']? = some y →
    x.valid = true → y.valid = true → x.tag = y.tag → w = w'

/-- An insertion finds its line missing, and looks for it in a way that could find it. -/
def LooksFirst (c : Cache δ) : CacheUse δ → Prop
  | .fill addr _ _ => c.param.cacheByPass = false ∨ c.lookup addr = none
  | .readonlyFill addr _ _ => c.lookup addr = none
  | _ => True

/-- A new cache has no line twice. -/
theorem UniqueLines.new [Inhabited δ] (p : CacheParam) (junk : ℕ → ℤ × ℤ) :
    UniqueLines (Cache.new (δ := δ) p junk) := by
  intro i w w' x y hx _ hvalid
  obtain rfl := List.eq_of_mem_replicate (List.mem_of_getElem? hx)
  cases hvalid

/-- Ways that stay valid keep their tags. -/
theorem UniqueLines.keep {c c' : Cache δ} (h : UniqueLines c)
    (hkeep : ∀ (i w : ℕ) (x : CacheEntry δ), (c'.set i).entry[w]? = some x → x.valid = true →
      ∃ old : CacheEntry δ, (c.set i).entry[w]? = some old ∧ old.valid = true ∧
        old.tag = x.tag) : UniqueLines c' := by
  intro i w w' x y hx hy hxv hyv htag
  obtain ⟨oldx, hox, hoxv, hoxt⟩ := hkeep i w x hx hxv
  obtain ⟨oldy, hoy, hoyv, hoyt⟩ := hkeep i w' y hy hyv
  exact h i w w' oldx oldy hox hoy hoxv hoyv (by rw [hoxt, hoyt, htag])

/-- A rewrite of one way that makes nothing valid and changes no tag of a valid way. -/
theorem UniqueLines.modify {c : Cache δ} (h : UniqueLines c) {l : Slot}
    {f : CacheEntry δ → CacheEntry δ} (hf : ∀ line, (f line).valid = true →
      line.valid = true ∧ line.tag = (f line).tag) : UniqueLines (c.modifyEntry l f) := by
  refine h.keep fun i w x hx hvalid => ?_
  rw [modifyEntry_entry] at hx
  split at hx
  · rw [List.getElem?_modify] at hx
    obtain ⟨old, hold, heq⟩ := Option.map_eq_some_iff.mp hx
    split at heq
    · rw [← heq] at hvalid ⊢
      obtain ⟨hov, hot⟩ := hf old hvalid
      exact ⟨old, hold, hov, hot⟩
    · exact ⟨x, heq ▸ hold, hvalid, rfl⟩
  · exact ⟨x, hx, hvalid, rfl⟩

/-- The choice of the victim keeps the ways with their tags. -/
theorem victimWay_tags {c : Cache δ} {k : CacheKnobs} {i way : ℕ} {g : Bool} {s : CacheSet δ}
    (h : c.victimWay k i g = some (way, s)) {w : ℕ} {x : CacheEntry δ}
    (hx : s.entry[w]? = some x) : ∃ old : CacheEntry δ, (c.set i).entry[w]? = some old ∧
      old.valid = x.valid ∧ old.tag = x.tag := by
  unfold Cache.victimWay at h
  split at h
  · obtain ⟨_, -, heq⟩ := Option.map_eq_some_iff.mp h
    obtain ⟨-, rfl⟩ := Prod.mk.inj heq
    exact ⟨x, hx, rfl, rfl⟩
  · have heq := Option.some.inj h
    unfold Cache.findReplacementLine at heq
    split at heq
    · split at heq
      · obtain ⟨-, rfl⟩ := Prod.mk.inj heq
        exact ⟨x, hx, rfl, rfl⟩
      · obtain ⟨-, rfl⟩ := Prod.mk.inj heq
        dsimp only at hx
        rw [List.getElem?_map] at hx
        obtain ⟨old, hold, rfl⟩ := Option.map_eq_some_iff.mp hx
        exact ⟨old, hold, rfl, rfl⟩
    · obtain ⟨-, rfl⟩ := Prod.mk.inj heq
      exact ⟨x, hx, rfl, rfl⟩

/-- An insertion of a line that is not there. -/
theorem UniqueLines.insert {c c' : Cache δ} (h : UniqueLines c) {k : CacheKnobs} {now : Counter}
    {a victim : Addr} {applId : ℕ} {g : Bool} {l : Slot} (hmiss : c.lookup a = none)
    (hins : c.insertCache k now a applId g = some (l, victim, c')) : UniqueLines c' := by
  obtain ⟨s, line, hset, hway, -, -, -, hentry⟩ := insertCache_ways hins
  have hnone : ∀ x ∈ (c.set l.set).entry, x.holds (c.param.findTagAndSet a).1 = false := by
    rw [hset]
    simpa [Cache.lookup] using hmiss
  -- a way of the new set is the new line or an old one with another tag
  have hkind : ∀ (i w : ℕ) (x : CacheEntry δ), (c'.set i).entry[w]? = some x → x.valid = true →
      (i = l.set ∧ w = l.way ∧ x.tag = (c.param.findTagAndSet a).1) ∨
        ∃ old : CacheEntry δ, (c.set i).entry[w]? = some old ∧ old.valid = true ∧
          old.tag = x.tag ∧ (i = l.set → x.tag ≠ (c.param.findTagAndSet a).1) := by
    intro i w x hx hvalid
    rw [hentry i] at hx
    split at hx
    · next hi =>
      rw [List.getElem?_modify] at hx
      obtain ⟨y, hy, heq⟩ := Option.map_eq_some_iff.mp hx
      split at heq
      · next hw =>
        refine Or.inl ⟨hi, hw.symm, ?_⟩
        rw [← heq]
        rfl
      · obtain rfl : y = x := heq
        obtain ⟨old, hold, hov, hot⟩ := victimWay_tags hway hy
        refine Or.inr ⟨old, by rw [hi]; exact hold, hov.trans hvalid, hot, fun _ htag => ?_⟩
        have hholds := hnone old (List.mem_of_getElem? hold)
        unfold CacheEntry.holds at hholds
        rw [hov, hvalid, hot, htag] at hholds
        simp at hholds
    · next hi => exact Or.inr ⟨x, hx, hvalid, rfl, fun hi' => absurd hi' hi⟩
  intro i w w' x y hx hy hxv hyv htag
  rcases hkind i w x hx hxv with ⟨hi, hw, hxt⟩ | ⟨oldx, hox, hoxv, hoxt, hxne⟩
  · rcases hkind i w' y hy hyv with ⟨-, hw', -⟩ | ⟨-, -, -, -, hyne⟩
    · rw [hw, hw']
    · exact absurd (htag.symm.trans hxt) (hyne hi)
  · rcases hkind i w' y hy hyv with ⟨hi, -, hyt⟩ | ⟨oldy, hoy, hoyv, hoyt, -⟩
    · exact absurd (htag.trans hyt) (hxne hi)
    · exact h i w w' oldx oldy hox hoy hoxv hoyv (by rw [hoxt, hoyt, htag])

/-- An access puts no line in twice. -/
theorem UniqueLines.access {c : Cache δ} (h : UniqueLines c) (now : Counter) (a : Addr)
    (upd : Bool) : UniqueLines (c.accessCache now a upd).2 := by
  generalize hx : c.accessCache now a upd = x
  rcases (accessCache_ways hx).2 with ⟨hsame, -⟩ | ⟨l, -, -, -, hc'⟩
  · rw [hsame]
    exact h
  · rw [hc']
    exact h.modify fun line hvalid => ⟨hvalid, rfl⟩

/-- One call of a user that looks first. -/
theorem UniqueLines.use [Inhabited δ] {k : CacheKnobs} {now : Counter} {c c' : Cache δ}
    {op : CacheUse δ} (h : UniqueLines c) (hop : LooksFirst c op)
    (huse : c.use k now op = some c') : UniqueLines c' := by
  cases op with
  | access addr upd =>
      cases huse
      exact h.access now addr upd
  | fill addr applId g =>
      unfold Cache.use Cache.fill at huse
      dsimp only at huse
      have hunchanged := h.access now addr false
      generalize hx : c.accessCache now addr false = x at huse hunchanged
      obtain ⟨r, c₁⟩ := x
      cases r with
      | some l =>
          cases huse
          exact hunchanged
      | none =>
          obtain ⟨hc₁, hlook⟩ := accessCache_miss hx
          subst hc₁
          have hmiss : c₁.lookup addr = none := by
            rcases hop with hpass | hnone
            · exact hlook hpass
            · exact hnone
          obtain ⟨⟨l, victim, c₂⟩, hins, rfl⟩ := Option.map_eq_some_iff.mp huse
          exact h.insert hmiss hins
  | readonlyFill addr applId g =>
      obtain ⟨⟨l, victim, c₂⟩, hins, rfl⟩ := Option.map_eq_some_iff.mp huse
      exact h.insert hop hins
  | write l f =>
      cases huse
      exact h.modify fun line hvalid => ⟨hvalid, rfl⟩
  | invalidateLine addr =>
      cases huse
      rcases invalidateCacheLine_ways c addr with hsame | ⟨l, -, hc'⟩
      · rw [hsame]
        exact h
      · rw [hc']
        exact h.modify fun line hvalid => absurd hvalid Bool.false_ne_true
  | invalidateCache =>
      cases huse
      refine h.keep fun i w x hx hvalid => ?_
      change ((c.set i).entry.map _)[w]? = _ at hx
      rw [List.getElem?_map] at hx
      obtain ⟨old, -, rfl⟩ := Option.map_eq_some_iff.mp hx
      cases hvalid

/-- Invalidating a line removes it. -/
theorem UniqueLines.invalidate [Inhabited δ] {c : Cache δ} (h : UniqueLines c) (a : Addr) :
    (c.invalidateCacheLine a).lookup a = none := by
  unfold Cache.invalidateCacheLine
  cases hl : c.lookup a with
  | none => exact hl
  | some l =>
      obtain ⟨w, hw, rfl⟩ := Option.map_eq_some_iff.mp hl
      obtain ⟨hlt, hholds, -⟩ := List.findIdx?_eq_some_iff_getElem.mp hw
      obtain ⟨hvalid, htag⟩ := Bool.and_eq_true_iff.mp hholds
      refine Option.map_eq_none_iff.mpr (List.findIdx?_eq_none_iff.mpr fun x hx => ?_)
      change x.holds (c.param.findTagAndSet a).1 = false
      change x ∈ ((c.modifyEntry _ _).set (c.param.findTagAndSet a).2).entry at hx
      rw [modifyEntry_entry, if_pos rfl] at hx
      obtain ⟨w', hw'⟩ := List.mem_iff_getElem?.mp hx
      rw [List.getElem?_modify] at hw'
      obtain ⟨y, hy, heq⟩ := Option.map_eq_some_iff.mp hw'
      split at heq
      · rw [← heq]
        rfl
      · next hne =>
        obtain rfl : y = x := heq
        by_contra hyholds
        rw [Bool.not_eq_false] at hyholds
        obtain ⟨hyv, hyt⟩ := Bool.and_eq_true_iff.mp hyholds
        refine hne (h _ w w' _ y (List.getElem?_eq_getElem hlt) hy hvalid hyv ?_)
        rw [beq_iff_eq.mp htag, beq_iff_eq.mp hyt]

/-- In every run of users that look first no set gets two valid ways with one tag, so that a
walk has one answer and an invalidation removes the line. -/
theorem unique_lines [Inhabited δ] (k : CacheKnobs) (p : CacheParam) (junk : ℕ → ℤ × ℤ)
    (uses : List (Counter × CacheUse δ)) (c : Cache δ)
    (huses : EachStep (fun c x => c.use k x.1 x.2) (fun c x => LooksFirst c x.2)
      (Cache.new (δ := δ) p junk) uses)
    (hrun : Cache.runUses k uses (Cache.new p junk) = some c) :
    UniqueLines c ∧ ∀ a, (c.invalidateCacheLine a).lookup a = none := by
  have hunique : UniqueLines c := by
    have hstart := UniqueLines.new (δ := δ) p junk
    generalize Cache.new (δ := δ) p junk = c₀ at hstart huses hrun
    induction uses generalizing c₀ with
    | nil =>
        cases hrun
        exact hstart
    | cons x uses ih =>
        obtain ⟨c₁, hstep, hrest⟩ := Option.bind_eq_some_iff.mp hrun
        exact ih c₁ (hstart.use huses.1 hstep) (huses.2 c₁ hstep) hrest
  exact ⟨hunique, hunique.invalidate⟩

/-- Two fills of one line after lookups. -/
theorem unique_lines_fill : ∃ c : Cache Unit,
    Cache.runUses trueLru [(1, .fill 0 0 false), (2, .fill 0 0 false)]
      (Cache.new twoWays fun _ => (0, 0)) = some c ∧
      UniqueLines c ∧ ∀ a, (c.invalidateCacheLine a).lookup a = none := by
  refine ⟨_, rfl, unique_lines trueLru twoWays (fun _ => (0, 0))
    [(1, .fill 0 0 false), (2, .fill 0 0 false)] _ ⟨Or.inl rfl, fun c' hstep => ?_⟩ rfl⟩
  cases hstep
  exact ⟨Or.inl rfl, fun _ _ => trivial⟩

/-- A constant cache that is filled for two merged requests of one line has the line twice, and
an invalidation leaves one of them. -/
theorem readonly_fill_duplicates : ∃ c : Cache Unit,
    Cache.runUses trueLru [(1, .readonlyFill 0 0 false), (2, .readonlyFill 0 0 false)]
      (Cache.new twoWays fun _ => (0, 0)) = some c ∧
      ¬ UniqueLines c ∧ (c.invalidateCacheLine 0).lookup 0 = some ⟨0, 1⟩ := by
  refine ⟨_, rfl, fun h => ?_, rfl⟩
  exact absurd (h 0 0 1 _ _ rfl rfl rfl rfl rfl) (by decide)

end MacSim.Analysis
