import Mathlib.Data.List.Find
import Mathlib.Data.List.Nodup
import Mathlib.Data.List.Sort

/-!
# The front of a sorted list

A stable sort puts the first of the smallest elements in front.  The comparison need only be an
order on the elements of the list.
-/

set_option autoImplicit false

namespace MacSim.Computation

variable {α κ : Type} {l : List α}

/-- The comparison is a strict weak order on the elements of a list. -/
structure StrictWeakOn (r : α → α → Bool) (l : List α) : Prop where
  irrefl : ∀ a ∈ l, r a a = false
  trans : ∀ a ∈ l, ∀ b ∈ l, ∀ c ∈ l, r a b = true → r b c = true → r a c = true
  negTrans : ∀ a ∈ l, ∀ b ∈ l, ∀ c ∈ l, r a b = false → r b c = false → r a c = false

section Keys

variable [LinearOrder κ] {r : α → α → Bool} {key : α → κ}

/-- A comparison of keys is one. -/
theorem strictWeakOn_of_key (h : ∀ a ∈ l, ∀ b ∈ l, r a b = decide (key a < key b)) :
    StrictWeakOn r l where
  irrefl := by
    intro a ha
    rw [h a ha a ha]
    exact decide_eq_false (lt_irrefl _)
  trans := by
    intro a ha b hb c hc hab hbc
    rw [h a ha b hb] at hab
    rw [h b hb c hc] at hbc
    rw [h a ha c hc]
    exact decide_eq_true ((of_decide_eq_true hab).trans (of_decide_eq_true hbc))
  negTrans := by
    intro a ha b hb c hc hab hbc
    rw [h a ha b hb] at hab
    rw [h b hb c hc] at hbc
    rw [h a ha c hc]
    have hba : key b ≤ key a := not_lt.mp (of_decide_eq_false hab)
    have hcb : key c ≤ key b := not_lt.mp (of_decide_eq_false hbc)
    exact decide_eq_false (not_lt.mpr (hcb.trans hba))

/-- The first of the elements with the smallest key. -/
def firstMin (key : α → κ) (l : List α) : Option α :=
  l.find? fun e => l.all fun a => decide (key e ≤ key a)

/-- The first minimum is an element that is least. -/
theorem firstMin_eq_some {e : α} (h : firstMin key l = some e) :
    e ∈ l ∧ ∀ a ∈ l, key e ≤ key a := by
  refine ⟨List.mem_of_find?_eq_some h, fun a ha => ?_⟩
  have hall := List.find?_some h
  exact of_decide_eq_true (List.all_eq_true.mp hall a ha)

/-- The front of the sorted list, when no element is in the list twice. -/
theorem head?_mergeSort (hl : l.Nodup)
    (h : ∀ a ∈ l, ∀ b ∈ l, r a b = decide (key a ≤ key b)) :
    (l.mergeSort r).head? = firstMin key l := by
  have hkeys : l.mergeSort r = l.mergeSort fun a b => decide (key a ≤ key b) := by
    have hmap := List.map_mergeSort (f := id) (r := r) (s := fun a b => decide (key a ≤ key b)) h
    rwa [List.map_id, List.map_id] at hmap
  have htrans : ∀ a b c : α, decide (key a ≤ key b) = true → decide (key b ≤ key c) = true →
      decide (key a ≤ key c) = true := fun a b c hab hbc =>
    decide_eq_true ((of_decide_eq_true hab).trans (of_decide_eq_true hbc))
  have htotal : ∀ a b : α, (decide (key a ≤ key b) || decide (key b ≤ key a)) = true := by
    intro a b
    rw [Bool.or_eq_true, decide_eq_true_eq, decide_eq_true_eq]
    exact le_total _ _
  have hsorted := List.pairwise_mergeSort htrans htotal l
  have hperm := List.mergeSort_perm l fun a b => decide (key a ≤ key b)
  have hnodup := hperm.nodup_iff.mpr hl
  have hstable := fun {a e : α} => List.pair_sublist_mergeSort (a := a) (b := e) (l := l)
    htrans htotal
  rw [hkeys]
  cases hsort : l.mergeSort fun a b => decide (key a ≤ key b) with
  | nil =>
    rw [hsort] at hperm
    rw [← hperm.nil_eq]
    rfl
  | cons e rest =>
    rw [hsort] at hsorted hperm hnodup hstable
    have hmem : e ∈ l := hperm.mem_iff.mp (List.mem_cons_self ..)
    have hmin : ∀ a ∈ l, key e ≤ key a := by
      intro a ha
      rcases List.mem_cons.mp (hperm.mem_iff.mpr ha) with rfl | hrest
      · exact le_rfl
      · exact of_decide_eq_true ((List.pairwise_cons.mp hsorted).1 a hrest)
    obtain ⟨pre, post, rfl⟩ := List.append_of_mem hmem
    refine (List.find?_eq_some_iff_append.mpr ⟨?_, pre, post, rfl, fun a ha => ?_⟩).symm
    · exact List.all_eq_true.mpr fun a ha => decide_eq_true (hmin a ha)
    · -- an equal element in front of it would stay in front
      by_contra hnot
      rw [Bool.not_eq_true', Bool.not_eq_false, List.all_eq_true] at hnot
      have hall := hnot e hmem
      have hpair : [a, e].Sublist (pre ++ e :: post) :=
        (List.singleton_sublist.mpr ha).append (List.singleton_sublist.mpr
          (List.mem_cons_self ..))
      have hfront := hstable hall hpair
      have hnotmem := (List.nodup_cons.mp hnodup).1
      cases hfront with
      | cons _ hrest => exact hnotmem (hrest.subset (by simp))
      | cons_cons _ hrest => exact hnotmem (hrest.subset (by simp))

/-- The first minimum of some elements, by a key that agrees with another one there, when all
minima are among them. -/
theorem firstMin_filter {κ' : Type} [LinearOrder κ'] {key' : α → κ'} {p : α → Bool}
    (h : ∀ e ∈ l, (∀ a ∈ l, key e ≤ key a) ↔ p e = true ∧ ∀ a ∈ l, p a = true → key' e ≤ key' a) :
    firstMin key' (l.filter p) = firstMin key l := by
  unfold firstMin
  rw [List.find?_filter]
  refine List.find?_congr fun e he => ?_
  rw [Bool.eq_iff_iff, decide_eq_true_iff]
  have hsimp : (l.filter p).all (fun a => decide (key' e ≤ key' a)) = true ↔
      ∀ a ∈ l, p a = true → key' e ≤ key' a := by
    rw [List.all_eq_true]
    constructor
    · exact fun hall a ha hp => of_decide_eq_true (hall a (List.mem_filter.mpr ⟨ha, hp⟩))
    · intro hall a ha
      obtain ⟨ha, hp⟩ := List.mem_filter.mp ha
      exact decide_eq_true (hall a ha hp)
  rw [hsimp, ← h e he, List.all_eq_true]
  exact forall₂_congr fun a _ => decide_eq_true_iff.symm

end Keys

end MacSim.Computation
