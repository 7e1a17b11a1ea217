import Mathlib.Data.Int.Log
import Mathlib.Data.Rat.Floor
import Mathlib.Tactic

/-!
# Rounding to a binary precision

Arithmetic in a floating-point format computes the exact rational result and then rounds it to
the nearest number whose significand has the precision of the format, ties to the even one.  The
exponent is unbounded here, so the functions describe a format as long as nothing overflows.
The lemmas say that an integer no larger than two to the precision is not rounded at all, so a
computation whose exact intermediate results are such integers is exact.
-/

set_option autoImplicit false

namespace MacSim.Computation

/-- The integer nearest to a number, the even one of two. -/
def roundHalfEven (q : ℚ) : ℤ :=
  let below := ⌊q⌋
  if q - below < 1 / 2 then below
  else if 1 / 2 < q - below then below + 1
  else if below % 2 = 0 then below else below + 1

/-- An integer is not rounded. -/
@[simp] theorem roundHalfEven_intCast (k : ℤ) : roundHalfEven k = k := by
  simp [roundHalfEven]

/-- The distance of two neighbours among the numbers of a precision near `q`. -/
def ulp (precision : ℕ) (q : ℚ) : ℚ :=
  (2 : ℚ) ^ (Int.log 2 |q| + 1 - precision)

/-- The unit in the last place is positive. -/
theorem ulp_pos (precision : ℕ) (q : ℚ) : 0 < ulp precision q := by
  unfold ulp
  positivity

/-- The number of a precision nearest to `q`. -/
def nearest (precision : ℕ) (q : ℚ) : ℚ :=
  roundHalfEven (q / ulp precision q) * ulp precision q

/-- A multiple of the distance of its neighbours is not rounded. -/
theorem nearest_of_multiple {precision : ℕ} {q : ℚ} {k : ℤ}
    (hk : q / ulp precision q = k) : nearest precision q = q := by
  have hne : ulp precision q ≠ 0 := (ulp_pos precision q).ne'
  rw [nearest, hk, roundHalfEven_intCast, ← hk, div_mul_cancel₀ q hne]

/-- An integer up to two to the precision is not rounded. -/
theorem nearest_natCast {precision n : ℕ} (hp : 0 < precision) (h : n ≤ 2 ^ precision) :
    nearest precision (n : ℚ) = n := by
  rcases h.lt_or_eq with hlt | heq
  · -- below the bound the neighbours are at most one apart, by a power of two
    have hlog : Nat.log 2 n + 1 ≤ precision ∨ n = 0 := by
      by_cases hn : n = 0
      · exact Or.inr hn
      · exact Or.inl (Nat.log_lt_of_lt_pow hn hlt)
    rcases hlog with hlog | rfl
    · obtain ⟨j, hj⟩ := Nat.exists_eq_add_of_le hlog
      have hulp : ulp precision (n : ℚ) = (2 : ℚ) ^ (-(j : ℤ)) := by
        rw [ulp, Nat.abs_cast, Int.log_natCast]
        congr 1
        omega
      refine nearest_of_multiple (k := (n : ℤ) * 2 ^ j) ?_
      rw [hulp, zpow_neg, zpow_natCast, div_inv_eq_mul]
      push_cast
      rfl
    · simp [nearest, roundHalfEven]
  · subst heq
    have hulp : ulp precision ((2 ^ precision : ℕ) : ℚ) = 2 := by
      rw [ulp, Nat.abs_cast, Int.log_natCast, Nat.log_pow (by norm_num)]
      have hexp : ((precision : ℤ) + 1 - precision) = 1 := by omega
      rw [hexp, zpow_one]
    obtain ⟨p, rfl⟩ := Nat.exists_eq_succ_of_ne_zero hp.ne'
    refine nearest_of_multiple (k := 2 ^ p) ?_
    rw [hulp, pow_succ]
    push_cast
    rw [mul_div_assoc, div_self (by norm_num), mul_one]

end MacSim.Computation
