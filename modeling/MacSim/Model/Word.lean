import Mathlib.Data.Nat.Log
import Mathlib.Data.Nat.Bitwise
import Mathlib.Tactic

/-!
# Machine words and the address helpers

`Addr` and `Counter` are the simulator's `uns64`.  The helpers of `utils.h` that every
address computation goes through are here: the bit mask `N_BIT_MASK`, the integer
logarithm `log2_int` and the bank selector `BANK`.

`log2Int_eq_log` replaces the shifting loop by the library's logarithm, and
`toNat_ushiftRight_and_mask` reads a shift followed by a mask as a quotient followed by a
remainder; the address analyses use only these two.
-/

set_option autoImplicit false

namespace MacSim.Model

/-- `uns64` used as an address. -/
abbrev Addr := BitVec 64

/-- `uns64` used as a clock value. -/
abbrev Counter := BitVec 64

/-- `N_BIT_MASK(N)`.
SRCLINE: utils.h:72 -/
def nBitMask (n : ℕ) : BitVec 64 := (1#64 <<< n) - 1#64

/-- The loop of `log2_int`: the argument is halved until it vanishes.  An argument `n` is
halved at most `n` times, so `n` rounds are enough. -/
def log2Loop : ℕ → ℕ → ℕ → ℕ
  | 0, _, power => power
  | rounds + 1, n, power =>
      if n >>> 1 = 0 then power else log2Loop rounds (n >>> 1) (power + 1)

/-- `log2_int`.
SRCLINE: utils.cc:131-136 -/
def log2Int (n : ℕ) : ℕ := log2Loop n n 0

/-- `BANK(a, num, int)`.
SRCLINE: utils.h:77 -/
def bank (a : Addr) (num interleave : ℕ) : BitVec 64 :=
  (a >>> log2Int interleave) &&& nBitMask (log2Int num)

/-- The test `(n & (n - 1)) == 0` by which the source recognises powers of two. -/
def isPow2 (n : ℕ) : Bool := n &&& (n - 1) = 0

/-! ## The logarithm -/

/-- With enough rounds the loop adds the logarithm. -/
theorem log2Loop_eq (rounds n power : ℕ) (h : n ≤ rounds) :
    log2Loop rounds n power = power + Nat.log 2 n := by
  induction rounds generalizing n power with
  | zero =>
      obtain rfl : n = 0 := by omega
      simp [log2Loop]
  | succ rounds ih =>
      simp only [log2Loop, Nat.shiftRight_one]
      by_cases hn : n / 2 = 0
      · rw [if_pos hn, Nat.log_of_lt (by omega)]
        rfl
      · have hlog : Nat.log 2 n = Nat.log 2 (n / 2) + 1 :=
          Nat.log_of_one_lt_of_le (by omega) (by omega)
        rw [if_neg hn, ih _ _ (by omega), hlog]
        omega

/-- The shifting loop computes the binary logarithm, rounded down, with value `0` at `0`. -/
theorem log2Int_eq_log (n : ℕ) : log2Int n = Nat.log 2 n := by
  rw [log2Int, log2Loop_eq n n 0 le_rfl, Nat.zero_add]

/-- The logarithm of a power of two is exact. -/
theorem log2Int_two_pow (k : ℕ) : log2Int (2 ^ k) = k := by
  rw [log2Int_eq_log, Nat.log_pow (by omega)]

/-- The power of two below a number. -/
theorem two_pow_log2Int_le {n : ℕ} (h : 0 < n) : 2 ^ log2Int n ≤ n := by
  rw [log2Int_eq_log]
  exact Nat.pow_log_le_self 2 (by omega)

/-- The power-of-two test of the source, for a positive argument. -/
theorem isPow2_iff {n : ℕ} (h : 0 < n) : isPow2 n = true ↔ n = 2 ^ log2Int n := by
  simp only [isPow2, decide_eq_true_eq]
  rw [Nat.and_sub_one_eq_zero_iff_isPowerOfTwo (by omega)]
  constructor
  · rintro ⟨k, rfl⟩
    rw [log2Int_two_pow]
  · intro hn
    exact ⟨_, hn⟩

/-! ## Masks -/

/-- A mask of `n` bits. -/
theorem toNat_nBitMask {n : ℕ} (h : n < 64) : (nBitMask n).toNat = 2 ^ n - 1 := by
  have hlt : 2 ^ n < 2 ^ 64 := Nat.pow_lt_pow_right (by omega) h
  have hpos : 0 < 2 ^ n := Nat.two_pow_pos n
  have hone : (1#64 <<< n).toNat = 2 ^ n := by
    rw [BitVec.toNat_shiftLeft, BitVec.toNat_ofNat, Nat.shiftLeft_eq]
    norm_num
    exact hlt
  rw [nBitMask, BitVec.toNat_sub, hone]
  have h1 : (1#64).toNat = 1 := rfl
  rw [h1]
  omega

/-- Masking with `N_BIT_MASK(n)` is the remainder modulo `2 ^ n`. -/
theorem toNat_and_mask (x : BitVec 64) {n : ℕ} (h : n < 64) :
    (x &&& nBitMask n).toNat = x.toNat % 2 ^ n := by
  rw [BitVec.toNat_and, toNat_nBitMask h, Nat.and_two_pow_sub_one_eq_mod]

/-- A shift followed by a mask extracts a bit field. -/
theorem toNat_ushiftRight_and_mask (x : BitVec 64) (s : ℕ) {n : ℕ} (h : n < 64) :
    ((x >>> s) &&& nBitMask n).toNat = x.toNat / 2 ^ s % 2 ^ n := by
  rw [toNat_and_mask _ h, BitVec.toNat_ushiftRight, Nat.shiftRight_eq_div_pow]

/-- The bank selector as arithmetic. -/
theorem toNat_bank (a : Addr) (num interleave : ℕ) (h : log2Int num < 64) :
    (bank a num interleave).toNat =
      a.toNat / 2 ^ log2Int interleave % 2 ^ log2Int num :=
  toNat_ushiftRight_and_mask a _ h

/-- A word is its part under a mask together with its part outside it. -/
theorem eq_of_and_mask_eq {x y m : BitVec 64} (hin : x &&& m = y &&& m)
    (hout : x &&& ~~~m = y &&& ~~~m) : x = y := by
  have split (z : BitVec 64) : (z &&& ~~~m) ||| (z &&& m) = z := by
    ext i hi
    simp only [BitVec.getElem_or, BitVec.getElem_and, BitVec.getElem_not]
    cases z[i] <;> cases m[i] <;> rfl
  rw [← split x, ← split y, hin, hout]

end MacSim.Model
