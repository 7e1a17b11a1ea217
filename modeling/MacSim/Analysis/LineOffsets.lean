import MacSim.Model.BitSearch

/-!
# The bit search finds some bits

The search looks at the bits 1 to 7 of the half word it has chosen, and not at the bits 8 to 31.
Behind the upper half of the byte it does not go on, so that it finds the highest bit only if that
is bit 0, 1, 2 or 4 of its half word.
-/

set_option autoImplicit false

namespace MacSim.Analysis

open MacSim.Model

/-- The highest bit of the word is one that the search finds. -/
def SearchedBit (x : BitVec 64) : Prop := Nat.log 2 x.toNat ∈ [0, 1, 2, 4, 32, 33, 34, 36]

/-- A field of a word is zero. -/
theorem and_field_eq_zero (x : BitVec 64) (offset width : ℕ) (h : offset + width ≤ 64)
    (hwidth : width < 64) :
    x &&& nBitMask width <<< offset = 0 ↔ x.toNat / 2 ^ offset % 2 ^ width = 0 := by
  have hfield : x &&& nBitMask width <<< offset =
      ((x >>> offset) &&& nBitMask width) <<< offset := by
    ext i hi
    simp only [BitVec.getElem_and, BitVec.getElem_shiftLeft, BitVec.getElem_ushiftRight]
    by_cases hio : i < offset
    · simp [hio]
    · have hsum : offset + (i - offset) = i := by omega
      simp [hio, hsum, BitVec.getLsbD_eq_getElem hi]
  have hvalue := toNat_ushiftRight_and_mask x offset hwidth
  have hlt : x.toNat / 2 ^ offset % 2 ^ width * 2 ^ offset < 2 ^ 64 := by
    calc x.toNat / 2 ^ offset % 2 ^ width * 2 ^ offset < 2 ^ width * 2 ^ offset :=
          Nat.mul_lt_mul_of_pos_right (Nat.mod_lt _ (Nat.two_pow_pos _)) (Nat.two_pow_pos _)
      _ = 2 ^ (offset + width) := by rw [Nat.pow_add, Nat.mul_comm]
      _ ≤ 2 ^ 64 := Nat.pow_le_pow_right (by omega) h
  rw [hfield, ← BitVec.toNat_inj, BitVec.toNat_shiftLeft, hvalue, Nat.shiftLeft_eq,
    Nat.mod_eq_of_lt hlt]
  change _ * _ = 0 ↔ _
  rw [Nat.mul_eq_zero]
  exact or_iff_left (Nat.two_pow_pos offset).ne'

/-- The bit that the search finds in a half word. -/
def searchedIn (n : ℕ) : ℕ :=
  if n / 2 ^ 4 % 2 ^ 4 ≠ 0 then 4
  else if n / 2 ^ 2 % 2 ^ 2 ≠ 0 then 2
  else if n / 2 ^ 1 % 2 ^ 1 ≠ 0 then 1
  else 0

/-- The search as arithmetic. -/
theorem floorLog2_eq (x : BitVec 64) :
    floorLog2 x =
      if 2 ^ 32 ≤ x.toNat then 32 + searchedIn (x.toNat / 2 ^ 32) else searchedIn x.toNat := by
  have hstages : ∀ (ux : BitVec 64) (y : ℕ),
      (if ux &&& 0xf0#64 ≠ 0 then y + 4
        else if ux &&& 0xc#64 ≠ 0 then y + 2
        else if ux &&& 0x2#64 ≠ 0 then y + 1
        else y) = y + searchedIn ux.toNat := by
    intro ux y
    have hfour : ux &&& 0xf0#64 ≠ 0 ↔ _ :=
      not_congr (and_field_eq_zero ux 4 4 (by omega) (by omega))
    have htwo : ux &&& 0xc#64 ≠ 0 ↔ _ :=
      not_congr (and_field_eq_zero ux 2 2 (by omega) (by omega))
    have hone : ux &&& 0x2#64 ≠ 0 ↔ _ :=
      not_congr (and_field_eq_zero ux 1 1 (by omega) (by omega))
    unfold searchedIn
    simp only [hfour, htwo, hone, Ne]
    split_ifs <;> rfl
  have hupper : x &&& 0xffffffff00000000#64 ≠ 0 ↔ 2 ^ 32 ≤ x.toNat := by
    have hfield := and_field_eq_zero x 32 32 (by omega) (by omega)
    have hlt := x.isLt
    rw [Ne, show (0xffffffff00000000#64 : BitVec 64) = nBitMask 32 <<< 32 by decide, hfield]
    omega
  unfold floorLog2
  dsimp only
  rw [hstages]
  by_cases h : 2 ^ 32 ≤ x.toNat
  · rw [if_pos (hupper.mpr h), if_pos (hupper.mpr h), if_pos h, BitVec.toNat_ushiftRight,
      Nat.shiftRight_eq_div_pow]
  · rw [if_neg (mt hupper.mp h), if_neg (mt hupper.mp h), if_neg h, Nat.zero_add]

/-- The search in a half word is right for the bits 0, 1, 2 and 4. -/
theorem searchedIn_eq_iff {n : ℕ} (hn : 0 < n) :
    searchedIn n = Nat.log 2 n ↔ Nat.log 2 n ∈ [0, 1, 2, 4] := by
  have hlog : ∀ k, Nat.log 2 n = k ↔ 2 ^ k ≤ n ∧ n < 2 ^ (k + 1) := fun k =>
    Nat.log_eq_iff (.inr ⟨by omega, hn.ne'⟩)
  have hmem : Nat.log 2 n ∈ [0, 1, 2, 4] ↔
      (1 ≤ n ∧ n < 2) ∨ (2 ≤ n ∧ n < 4) ∨ (4 ≤ n ∧ n < 8) ∨ (16 ≤ n ∧ n < 32) := by
    simp only [List.mem_cons, List.not_mem_nil, or_false, hlog]
    norm_num
  rw [eq_comm, hlog, hmem]
  unfold searchedIn
  split_ifs <;> omega

/-- The search finds the highest bit of a word exactly if it is one of eight bits. -/
theorem floorLog2_eq_iff {x : BitVec 64} (hx : x ≠ 0) :
    floorLog2 x = Nat.log 2 x.toNat ↔ SearchedBit x := by
  have hpos : 0 < x.toNat := Nat.pos_of_ne_zero fun h => hx (BitVec.eq_of_toNat_eq h)
  have hlt := x.isLt
  rw [floorLog2_eq]
  unfold SearchedBit
  by_cases h : 2 ^ 32 ≤ x.toNat
  · have hlog : Nat.log 2 x.toNat = Nat.log 2 (x.toNat / 2 ^ 32) + 32 := by
      rw [Nat.log_div_base_pow, Nat.sub_add_cancel]
      exact Nat.le_log_of_pow_le (by omega) h
    have hdiv : 0 < x.toNat / 2 ^ 32 := Nat.div_pos h (Nat.two_pow_pos _)
    have hiff := searchedIn_eq_iff hdiv
    have hsmall : Nat.log 2 (x.toNat / 2 ^ 32) < 32 :=
      Nat.log_lt_of_lt_pow hdiv.ne' (by omega)
    rw [if_pos h, hlog]
    simp only [List.mem_cons, List.not_mem_nil, or_false] at hiff ⊢
    omega
  · have hiff := searchedIn_eq_iff hpos
    have hsmall : Nat.log 2 x.toNat < 32 := Nat.log_lt_of_lt_pow hpos.ne' (by omega)
    rw [if_neg h]
    simp only [List.mem_cons, List.not_mem_nil, or_false] at hiff ⊢
    omega

/-- `k` is the floor of the logarithm. -/
def IsFloorLog (x : BitVec 64) (k : ℕ) : Prop := 2 ^ k ≤ x.toNat ∧ x.toNat < 2 ^ (k + 1)

/-- `k` is the ceiling of the logarithm. -/
def IsCeilLog (x : BitVec 64) (k : ℕ) : Prop := IsLeast {n | x.toNat ≤ 2 ^ n} k

/-- The floor of a logarithm is the natural logarithm. -/
theorem isFloorLog_iff {x : BitVec 64} (hx : x ≠ 0) {k : ℕ} :
    IsFloorLog x k ↔ k = Nat.log 2 x.toNat := by
  have hpos : x.toNat ≠ 0 := fun h => hx (BitVec.eq_of_toNat_eq h)
  rw [eq_comm]
  exact (Nat.log_eq_iff (.inr ⟨by omega, hpos⟩)).symm

/-- The ceiling of a word is one more than the floor of the word below it. -/
theorem isCeilLog_succ_iff {x : BitVec 64} (hx : x ≠ 0) {k : ℕ} :
    IsCeilLog x (k + 1) ↔ IsFloorLog (x - 1) k := by
  have hzero : x.toNat ≠ 0 := fun h => hx (BitVec.eq_of_toNat_eq h)
  have hsub : (x - 1).toNat = x.toNat - 1 := by
    rw [BitVec.toNat_sub_of_le (by
      rw [BitVec.le_def]
      exact Nat.pos_of_ne_zero hzero)]
    rfl
  unfold IsCeilLog IsFloorLog
  rw [hsub]
  constructor
  · rintro ⟨hmem, hleast⟩
    refine ⟨?_, by
      change x.toNat ≤ 2 ^ (k + 1) at hmem
      omega⟩
    by_contra hlow
    have := hleast (show x.toNat ≤ 2 ^ k by omega)
    omega
  · rintro ⟨hlow, hhigh⟩
    refine ⟨show x.toNat ≤ 2 ^ (k + 1) by omega, fun n hn => ?_⟩
    by_contra hlt
    have hpow : 2 ^ n ≤ 2 ^ k := Nat.pow_le_pow_right (by omega) (by omega)
    have hn : x.toNat ≤ 2 ^ n := hn
    omega

/-- The search finds the floor of the logarithm exactly for the bits it looks at. -/
theorem floorLog2_exact_iff {x : BitVec 64} (hx : x ≠ 0) :
    IsFloorLog x (floorLog2 x) ↔ SearchedBit x := by
  rw [isFloorLog_iff hx, floorLog2_eq_iff hx]

/-- The search finds the ceiling of the logarithm for one and where the bit below is looked at. -/
theorem ceilLog2_exact_iff {x : BitVec 64} (hx : x ≠ 0) :
    IsCeilLog x (ceilLog2 x) ↔ x = 1 ∨ SearchedBit (x - 1) := by
  unfold ceilLog2
  by_cases hone : x = 1
  · subst hone
    rw [if_pos rfl]
    refine iff_of_true ⟨?_, fun n _ => Nat.zero_le n⟩ (.inl rfl)
    change 1 ≤ 2 ^ 0
    exact le_rfl
  · have hpred : x - 1 ≠ 0 := fun h => hone (by
      rw [← BitVec.sub_add_cancel x 1, h]
      rfl)
    rw [if_neg hone, isCeilLog_succ_iff hx, floorLog2_exact_iff hpred,
      or_iff_right hone]

/-- The ceiling of a power of two is its exponent. -/
theorem isCeilLog_two_pow {n k : ℕ} (hn : n < 64) :
    IsCeilLog (BitVec.ofNat 64 (2 ^ n)) k ↔ k = n := by
  have hvalue : (BitVec.ofNat 64 (2 ^ n)).toNat = 2 ^ n := by
    rw [BitVec.toNat_ofNat, Nat.mod_eq_of_lt (Nat.pow_lt_pow_right (by omega) hn)]
  have hset : {m | (BitVec.ofNat 64 (2 ^ n)).toNat ≤ 2 ^ m} = Set.Ici n := by
    ext m
    rw [hvalue]
    exact Nat.pow_le_pow_iff_right (by omega)
  unfold IsCeilLog
  rw [hset]
  exact ⟨fun h => h.unique isLeast_Ici, fun h => h ▸ isLeast_Ici⟩

/-- The floor is exact for the words whose highest bit the search finds, the ceiling for one and
the words behind these, and the offset bits of a line size `2 ^ n` for nine exponents. -/
theorem log2_exact_iff (x : BitVec 64) (hx : x ≠ 0) :
    (IsFloorLog x (floorLog2 x) ↔ SearchedBit x) ∧
      (IsCeilLog x (ceilLog2 x) ↔ x = 1 ∨ SearchedBit (x - 1)) ∧
      ∀ n < 64, x = BitVec.ofNat 64 (2 ^ n) →
        (lineOffsetBits x = n ↔ n ∈ [0, 1, 2, 3, 5, 33, 34, 35, 37]) := by
  refine ⟨floorLog2_exact_iff hx, ceilLog2_exact_iff hx, fun n hn hxn => ?_⟩
  subst hxn
  have hceil := ceilLog2_exact_iff hx
  rw [isCeilLog_two_pow hn] at hceil
  unfold lineOffsetBits
  rw [hceil]
  cases n with
  | zero => exact iff_of_true (.inl rfl) (by decide)
  | succ m =>
      have hbelow : IsFloorLog (BitVec.ofNat 64 (2 ^ (m + 1)) - 1) m :=
        (isCeilLog_succ_iff hx).mp ((isCeilLog_two_pow hn).mpr rfl)
      have hpred : BitVec.ofNat 64 (2 ^ (m + 1)) - 1 ≠ 0 := fun h => by
        have hpow := hbelow.1
        rw [h] at hpow
        exact absurd hpow (Nat.not_le.mpr (Nat.two_pow_pos m))
      have hone : BitVec.ofNat 64 (2 ^ (m + 1)) ≠ 1 := fun h => hpred (by
        rw [h]
        rfl)
      rw [or_iff_right hone, SearchedBit, ← (isFloorLog_iff hpred).mp hbelow]
      simp only [List.mem_cons, List.not_mem_nil, or_false]
      omega

/-- Of 64, the line size of the default configuration, the ceiling is found to be 5. -/
theorem log2_exact_iff_line :
    (IsFloorLog 64 (floorLog2 64) ↔ SearchedBit 64) ∧
      (IsCeilLog 64 (ceilLog2 64) ↔ (64 : BitVec 64) = 1 ∨ SearchedBit (64 - 1)) ∧
      ∀ n < 64, (64 : BitVec 64) = BitVec.ofNat 64 (2 ^ n) →
        (lineOffsetBits 64 = n ↔ n ∈ [0, 1, 2, 3, 5, 33, 34, 35, 37]) :=
  log2_exact_iff 64 (by decide)

/-- A line of 64 bytes gets 5 offset bits. -/
theorem line_of_64_gets_5_bits :
    lineOffsetBits 64 = 5 ∧ ¬ IsFloorLog 64 (floorLog2 64) ∧ ¬ IsCeilLog 64 (ceilLog2 64) := by
  refine ⟨by decide, fun h => ?_, fun h => ?_⟩
  · have hlog := (isFloorLog_iff (x := 64) (by decide)).mp h
    revert hlog
    decide
  · have hlog := (isCeilLog_two_pow (n := 6) (by omega)).mp h
    revert hlog
    decide

end MacSim.Analysis
