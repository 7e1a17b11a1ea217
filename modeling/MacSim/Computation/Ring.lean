import Mathlib.Data.List.Basic
import Mathlib.Data.List.Nodup
import Mathlib.Data.List.Range
import Mathlib.Tactic

/-!
# Circular windows

A circular buffer of `n` slots keeps a head and a length; its contents lie in the slots from
the head on, modulo `n`.  The window of a buffer is the list of these slots.  The lemmas say
how the window changes when the buffer grows at its end or shrinks at its head.
-/

set_option autoImplicit false

namespace MacSim.Computation

/-- The `len` slots from `first` on, modulo `n`. -/
def window (n first len : ℕ) : List ℕ := (List.range len).map fun k => (first + k) % n

/-- A window has its length. -/
@[simp] theorem length_window (n first len : ℕ) : (window n first len).length = len := by
  simp [window]

/-- The window grows at its end. -/
theorem window_concat (n first len : ℕ) :
    window n first (len + 1) = window n first len ++ [(first + len) % n] := by
  simp [window, List.range_succ]

/-- A window is cut at any of its slots. -/
theorem window_append (n first a b : ℕ) :
    window n first (a + b) = window n first a ++ window n (first + a) b := by
  simp [window, List.range_add, Nat.add_assoc]

/-- The window depends on the head modulo the size only. -/
@[simp] theorem window_mod (n first len : ℕ) : window n (first % n) len = window n first len := by
  simp [window]

/-- The window shrinks at its head. -/
theorem window_succ (n first len : ℕ) :
    window n first (len + 1) = first % n :: window n ((first + 1) % n) len := by
  rw [window_mod]
  simp only [window, List.range_succ_eq_map, List.map_cons, List.map_map, Nat.add_zero]
  refine congrArg _ (List.map_congr_left fun k _ => ?_)
  simp only [Function.comp_apply]
  congr 1
  omega

/-- The slots of a window are counted from its first slot. -/
theorem mem_window {n first len i : ℕ} :
    i ∈ window n first len ↔ ∃ k < len, (first + k) % n = i := by
  simp [window]

/-- The slots of a window are slots of the ring. -/
theorem lt_of_mem_window {n first len i : ℕ} (hn : 0 < n) (h : i ∈ window n first len) : i < n := by
  obtain ⟨k, -, rfl⟩ := mem_window.mp h
  exact Nat.mod_lt _ hn

/-- The place after `i`. -/
theorem slot_next {n i : ℕ} (hi : i < n) : (i + 1) % n = if i + 1 = n then 0 else i + 1 := by
  split
  · rename_i hend
    rw [hend, Nat.mod_self]
  · exact Nat.mod_eq_of_lt (by omega)

/-- The place before `i`. -/
theorem slot_prev {n i : ℕ} (hi : i < n) : (i + n - 1) % n = if i = 0 then n - 1 else i - 1 := by
  split
  · rename_i hzero
    rw [hzero, Nat.zero_add, Nat.mod_eq_of_lt (by omega)]
  · rw [show i + n - 1 = i - 1 + n by omega, Nat.add_mod_right, Nat.mod_eq_of_lt (by omega)]

/-- Two positions less than a round apart lie in different slots. -/
theorem add_mod_inj {n first j k : ℕ} (hj : j < n) (hk : k < n)
    (h : (first + j) % n = (first + k) % n) : j = k := by
  have hmod : j ≡ k [MOD n] := Nat.ModEq.add_left_cancel' first h
  exact Nat.ModEq.eq_of_lt_of_lt hmod hj hk

/-- A window of at most one round has no slot twice. -/
theorem nodup_window {n first len : ℕ} (h : len ≤ n) : (window n first len).Nodup := by
  refine List.Nodup.map_on ?_ List.nodup_range
  intro j hj k hk he
  exact add_mod_inj ((List.mem_range.mp hj).trans_le h) ((List.mem_range.mp hk).trans_le h) he

/-- A window of a whole round has every slot. -/
theorem mem_window_full {n first i : ℕ} : i ∈ window n first n ↔ i < n := by
  constructor
  · intro h
    obtain ⟨k, hk, -⟩ := mem_window.mp h
    exact lt_of_mem_window (Nat.zero_lt_of_lt hk) h
  · intro hi
    have hsub : (window n first n).toFinset ⊆ Finset.range n := by
      intro j hj
      exact Finset.mem_range.mpr
        (lt_of_mem_window (Nat.zero_lt_of_lt hi) (List.mem_toFinset.mp hj))
    have hcard : (Finset.range n).card ≤ (window n first n).toFinset.card := by
      rw [List.toFinset_card_of_nodup (nodup_window le_rfl), length_window, Finset.card_range]
    rw [← List.mem_toFinset, Finset.eq_of_subset_of_card_le hsub hcard]
    exact Finset.mem_range.mpr hi

/-- The slot behind a window that is not full is not in it. -/
theorem end_not_mem_window {n first len : ℕ} (h : len < n) :
    (first + len) % n ∉ window n first len := by
  intro hmem
  obtain ⟨k, hk, he⟩ := mem_window.mp hmem
  exact absurd (add_mod_inj (hk.trans h) h he) hk.ne

/-- The slot behind the end of a window is its head exactly when the window leaves one slot. -/
theorem full_iff {n first len : ℕ} (hfirst : first < n) (hlen : len < n) :
    ((first + len) % n + 1) % n = first ↔ len + 1 = n := by
  rw [Nat.mod_add_mod]
  constructor
  · intro h
    by_contra hne
    have hlt : len + 1 < n := by omega
    have heq : (first + (len + 1)) % n = (first + 0) % n := by
      rw [Nat.add_zero first, Nat.mod_eq_of_lt hfirst]
      exact h
    have := add_mod_inj hlt (by omega) heq
    omega
  · intro h
    rw [Nat.add_assoc, h, Nat.add_mod_right, Nat.mod_eq_of_lt hfirst]

end MacSim.Computation
