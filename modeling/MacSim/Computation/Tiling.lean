import Mathlib.Algebra.Group.Basic
import Mathlib.Data.Nat.Cast.Basic
import Mathlib.Data.List.Range
import Mathlib.Tactic

/-!
# Tilings of a range

A range of addresses is tiled by pieces that follow one another without gaps or overlaps.
-/

set_option autoImplicit false

namespace MacSim.Computation

section

variable {α : Type} [AddMonoidWithOne α]

/-- The pieces, each with its address and its length, tile the `n` addresses from `a` on. -/
def Tiles : α → ℕ → List (α × ℕ) → Prop
  | _, n, [] => n = 0
  | a, n, (b, s) :: l => b = a ∧ 0 < s ∧ s ≤ n ∧ Tiles (a + s) (n - s) l

/-- Chunks of equal length, the last one cut off at the end of the range. -/
theorem tiles_chunks {c m n : ℕ} (a : α) (hcover : n ≤ c * m) (hneed : ∀ q < m, c * q < n) :
    Tiles a n ((List.range m).map fun q => (a + (c * q : ℕ), min (n - c * q) c)) := by
  induction m generalizing a n with
  | zero => simpa [Tiles] using hcover
  | succ m ih =>
      have hpos : 0 < n := by simpa using hneed 0 (Nat.succ_pos m)
      have hc : 0 < c := Nat.pos_of_ne_zero fun hzero => by
        rw [hzero, Nat.zero_mul] at hcover
        omega
      rw [List.range_succ_eq_map, List.map_cons, List.map_map]
      refine ⟨by simp, by omega, by simp, ?_⟩
      cases m with
      | zero =>
          have hn : n ≤ c := by simpa using hcover
          simp [Tiles]
          omega
      | succ m =>
          have hlt : c < n := by simpa using hneed 1 (by omega)
          have hrest := ih (a + (c : ℕ)) (n := n - c)
            (by rw [Nat.mul_succ] at hcover; omega)
            (fun q hq => by
              have := hneed (q + 1) (by omega)
              rw [Nat.mul_succ] at this
              omega)
          have hmin : min (n - c * 0) c = c := by simp; omega
          rw [hmin]
          convert hrest using 2
          funext q
          simp only [Function.comp_apply, Nat.succ_eq_add_one, Nat.mul_succ]
          rw [Prod.mk.injEq]
          constructor
          · rw [Nat.add_comm, Nat.cast_add, add_assoc]
          · omega

end

/-- The indices with one remainder. -/
theorem range_filter_mod {w j : ℕ} (hj : j < w) (m : ℕ) :
    (List.range (m * w)).filter (fun i => i % w = j) = (List.range m).map fun q => q * w + j := by
  have hone : (List.range w).filter (fun i => i = j) = [j] := by
    rw [List.filter_eq, List.count_eq_one_of_mem List.nodup_range (List.mem_range.mpr hj)]
    rfl
  induction m with
  | zero => simp
  | succ m ih =>
      rw [Nat.succ_mul, List.range_add, List.filter_append, ih, List.range_succ, List.map_append,
        List.filter_map]
      have hshift : (List.range w).filter ((fun i => decide (i % w = j)) ∘ fun i => m * w + i) =
          [j] := by
        rw [← hone]
        refine List.filter_congr fun i hi => ?_
        rw [Function.comp_apply, Nat.mul_add_mod', Nat.mod_eq_of_lt (List.mem_range.mp hi)]
      rw [hshift]
      simp

end MacSim.Computation
