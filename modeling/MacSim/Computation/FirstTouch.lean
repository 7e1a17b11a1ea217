import Mathlib.Data.List.Basic
import Mathlib.Data.List.Nodup
import Mathlib.Data.Finset.Card
import Mathlib.Tactic

/-!
# Numbering by first touch

Keys get consecutive numbers in the order in which they are first touched.  The list of the
keys touched so far is the whole state; the number of a key is its index in the list, which
later touches do not change.
-/

set_option autoImplicit false

namespace MacSim.Computation

variable {κ : Type} [DecidableEq κ] {ks : List κ} {k k' : κ}

/-- The keys touched so far, after `k` is touched. -/
def firstTouch (ks : List κ) (k : κ) : List κ := if k ∈ ks then ks else ks ++ [k]

/-- The keys after a touch are those before and the one touched. -/
theorem mem_firstTouch : k' ∈ firstTouch ks k ↔ k' ∈ ks ∨ k' = k := by
  unfold firstTouch
  split
  · rename_i hk
    exact ⟨.inl, fun h => h.elim id fun he => he ▸ hk⟩
  · simp

/-- A touch repeats no key. -/
theorem firstTouch_nodup (h : ks.Nodup) : (firstTouch ks k).Nodup := by
  unfold firstTouch
  split
  · exact h
  · rename_i hk
    exact List.nodup_append.mpr ⟨h, List.nodup_singleton k, fun a ha b hb hab => hk (by
      rw [← List.mem_singleton.mp hb, ← hab]
      exact ha)⟩

/-- The number of a key stays. -/
theorem idxOf_firstTouch (h : k' ∈ ks) : (firstTouch ks k).idxOf k' = ks.idxOf k' := by
  unfold firstTouch
  split
  · rfl
  · exact List.idxOf_append_of_mem h

/-- Later touches do not move a key. -/
theorem idxOf_foldl_firstTouch (h : k' ∈ ks) (l : List κ) :
    (l.foldl firstTouch ks).idxOf k' = ks.idxOf k' := by
  induction l generalizing ks with
  | nil => rfl
  | cons k l ih => rw [List.foldl_cons, ih (mem_firstTouch.mpr (.inl h)), idxOf_firstTouch h]

/-- The keys after some touches are those before and those touched. -/
theorem mem_foldl_firstTouch {l : List κ} :
    k' ∈ l.foldl firstTouch ks ↔ k' ∈ ks ∨ k' ∈ l := by
  induction l generalizing ks with
  | nil => simp
  | cons k l ih =>
      rw [List.foldl_cons, ih, mem_firstTouch, List.mem_cons]
      tauto

/-- Touches repeat no key. -/
theorem foldl_firstTouch_nodup (h : ks.Nodup) (l : List κ) : (l.foldl firstTouch ks).Nodup := by
  induction l generalizing ks with
  | nil => exact h
  | cons k l ih => exact ih (firstTouch_nodup h)

/-- Of two keys, one of which has been touched, the other one is numbered if it is touched. -/
theorem foldl_firstTouch_of_mem {x y : κ} {l : List κ} (hl : ∀ k ∈ l, k = x ∨ k = y)
    (hx : x ∈ ks) : l.foldl firstTouch ks = if y ∈ l then firstTouch ks y else ks := by
  induction l generalizing ks with
  | nil => rfl
  | cons k l ih =>
      have hrest : ∀ k ∈ l, k = x ∨ k = y := fun k hk => hl k (List.mem_cons_of_mem _ hk)
      rw [List.foldl_cons]
      by_cases hky : k = y
      · have hagain : firstTouch (firstTouch ks y) y = firstTouch ks y :=
          if_pos (mem_firstTouch.mpr (.inr rfl))
        rw [hky, ih hrest (mem_firstTouch.mpr (.inl hx)), hagain, ite_self,
          if_pos List.mem_cons_self]
      · have hkx : k = x := (hl k List.mem_cons_self).resolve_right hky
        have hseen : firstTouch ks k = ks := if_pos (hkx ▸ hx)
        have hmem : y ∈ k :: l ↔ y ∈ l := by
          rw [List.mem_cons]
          exact or_iff_right fun h => hky h.symm
        rw [hseen, ih hrest hx, if_congr hmem rfl rfl]

/-- Touches of two keys number the one that is touched first and then the other one. -/
theorem foldl_firstTouch_pair {x y : κ} {l : List κ} (hl : ∀ k ∈ x :: l, k = x ∨ k = y)
    (hy : y ∈ x :: l) : (x :: l).foldl firstTouch ks = firstTouch (firstTouch ks x) y := by
  have hx : x ∈ firstTouch ks x := mem_firstTouch.mpr (.inr rfl)
  rw [List.foldl_cons,
    foldl_firstTouch_of_mem (fun k hk => hl k (List.mem_cons_of_mem _ hk)) hx]
  by_cases hyl : y ∈ l
  · rw [if_pos hyl]
  · have hyx : y = x := (List.mem_cons.mp hy).resolve_right hyl
    rw [if_neg hyl, hyx]
    exact (if_pos hx).symm

/-- No more numbers are given out than there are keys. -/
theorem idxOf_lt_of_bound {f : κ → ℕ} {N : ℕ} (hf : Set.InjOn f {k | k ∈ ks})
    (hnd : ks.Nodup) (hN : ∀ k ∈ ks, f k < N) (hk : k ∈ ks) : ks.idxOf k < N := by
  have hmap : (ks.map f).Nodup := hnd.map_on fun a ha b hb hab => hf ha hb hab
  have hsub : (ks.map f).toFinset ⊆ Finset.range N := by
    intro i hi
    obtain ⟨a, ha, rfl⟩ := List.mem_map.mp (List.mem_toFinset.mp hi)
    exact Finset.mem_range.mpr (hN a ha)
  calc ks.idxOf k < ks.length := List.idxOf_lt_length_iff.mpr hk
    _ = (ks.map f).toFinset.card := by rw [List.toFinset_card_of_nodup hmap, List.length_map]
    _ ≤ N := by simpa using Finset.card_le_card hsub

end MacSim.Computation
