import Mathlib.Data.Nat.Bitwise
import Mathlib.Data.Nat.ModEq
import Mathlib.Tactic

/-!
# Numbers from their bits under a shifted exclusive or

A number whose bits are known except for a window, and of whose window only the exclusive or
with a shifted copy of the number is known.  If the copy is taken from below the window, the
bits of the window follow from the lowest to the highest; if it is taken from above, from the
highest to the lowest.  The first rule is stated for a window of the quotient by a number that
is a multiple of a power of two.
-/

set_option autoImplicit false

namespace MacSim.Computation

variable {a b x y : ℕ}

/-- Numbers that agree in their low bits agree modulo a power of two. -/
theorem mod_two_pow_eq {i : ℕ} (hbit : ∀ j < i, x.testBit j = y.testBit j) :
    x % 2 ^ i = y % 2 ^ i := by
  apply Nat.eq_of_testBit_eq
  intro j
  rw [Nat.testBit_mod_two_pow, Nat.testBit_mod_two_pow]
  by_cases hj : j < i
  · rw [hbit j hj]
  · simp [hj]

/-- Numbers with the same low bits and the same high part are the same. -/
theorem eq_of_testBit_lt_of_div {len : ℕ} (hbit : ∀ i < len, x.testBit i = y.testBit i)
    (hdiv : x / 2 ^ len = y / 2 ^ len) : x = y := by
  rw [← Nat.div_add_mod x (2 ^ len), ← Nat.div_add_mod y (2 ^ len), hdiv, mod_two_pow_eq hbit]

/-- Numbers that agree modulo a power of two agree in their low bits. -/
theorem testBit_eq_of_mod {i j : ℕ} (hj : j < i) (h : x % 2 ^ i = y % 2 ^ i) :
    x.testBit j = y.testBit j := by
  have hbit := congrArg (Nat.testBit · j) h
  simpa [Nat.testBit_mod_two_pow, hj] using hbit

/-- One bit of the exclusive or of two fields. -/
theorem testBit_of_xor {len sh i : ℕ} (hi : i < len)
    (hx : (x % 2 ^ len) ^^^ (a / 2 ^ sh % 2 ^ len) = (y % 2 ^ len) ^^^ (b / 2 ^ sh % 2 ^ len))
    (hab : a.testBit (i + sh) = b.testBit (i + sh)) : x.testBit i = y.testBit i := by
  have hbit := congrArg (Nat.testBit · i) hx
  simp only [Nat.testBit_xor, Nat.testBit_mod_two_pow, Nat.testBit_div_two_pow, hi,
    decide_true, Bool.true_and, hab] at hbit
  exact Bool.xor_left_inj.mp hbit

/-- The copy comes from below: `x` is the quotient of the high part of `a` by `n`, and the
copy starts below the bit of `a` that the lowest bit of `x` first reaches. -/
theorem eq_of_xor_below {n t lo len sh r c : ℕ} (ht : 2 ^ t ∣ n) (hsh : sh < lo + t)
    (ha : a = (n * x + r) * 2 ^ lo + c) (hb : b = (n * y + r) * 2 ^ lo + c)
    (hdiv : x / 2 ^ len = y / 2 ^ len)
    (hx : (x % 2 ^ len) ^^^ (a / 2 ^ sh % 2 ^ len) = (y % 2 ^ len) ^^^ (b / 2 ^ sh % 2 ^ len)) :
    x = y := by
  have hlow (i : ℕ) (hxy : x ≡ y [MOD 2 ^ i]) : a % 2 ^ (t + i + lo) = b % 2 ^ (t + i + lo) := by
    obtain ⟨u, rfl⟩ := ht
    have hn : 2 ^ t * u * x ≡ 2 ^ t * u * y [MOD 2 ^ t * 2 ^ i] := by
      rw [mul_assoc, mul_assoc]
      exact (hxy.mul_left u).mul_left' (2 ^ t)
    have := ((hn.add_right r).mul_right' (2 ^ lo)).add_right c
    rw [ha, hb, pow_add, pow_add]
    exact this
  refine eq_of_testBit_lt_of_div (fun i => ?_) hdiv
  -- the bits of `x` below `i` fix those of `a` below `sh + i + 1`
  induction i using Nat.strong_induction_on with
  | _ i ih =>
      intro hi
      have hmod : x % 2 ^ i = y % 2 ^ i :=
        mod_two_pow_eq fun j hj => ih j hj (hj.trans hi)
      exact testBit_of_xor hi hx (testBit_eq_of_mod (by omega) (hlow i hmod))

/-- The copy comes from above. -/
theorem eq_of_xor_above {lo len sh : ℕ} (hsh : lo < sh) (hmod : a % 2 ^ lo = b % 2 ^ lo)
    (hdiv : a / 2 ^ lo / 2 ^ len = b / 2 ^ lo / 2 ^ len)
    (hx : (a / 2 ^ lo % 2 ^ len) ^^^ (a / 2 ^ sh % 2 ^ len) =
      (b / 2 ^ lo % 2 ^ len) ^^^ (b / 2 ^ sh % 2 ^ len)) : a = b := by
  have hhigh (j : ℕ) (hj : lo + len ≤ j) : a.testBit j = b.testBit j := by
    have hbit := congrArg (Nat.testBit · (j - len - lo)) hdiv
    simp only [Nat.testBit_div_two_pow] at hbit
    rwa [show j - len - lo + len + lo = j by omega] at hbit
  -- `d` bits of the window are left
  have hwindow (d : ℕ) : d ≤ len → ∀ j, lo + (len - d) ≤ j → a.testBit j = b.testBit j := by
    induction d with
    | zero => exact fun _ j hj => hhigh j (by omega)
    | succ d ih =>
        intro hd j hj
        by_cases hnext : lo + (len - d) ≤ j
        · exact ih (by omega) j hnext
        · have hi : j - lo < len := by omega
          have hbit := testBit_of_xor hi hx (ih (by omega) (j - lo + sh) (by omega))
          rw [Nat.testBit_div_two_pow, Nat.testBit_div_two_pow] at hbit
          rwa [show j - lo + lo = j by omega] at hbit
  apply Nat.eq_of_testBit_eq
  intro j
  by_cases hj : j < lo
  · exact testBit_eq_of_mod hj hmod
  · exact hwindow len le_rfl j (by omega)

end MacSim.Computation
