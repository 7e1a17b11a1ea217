import MacSim.Model.AddressMap

/-!
# Slices of the last-level cache and the index inside a slice

Two computations, written separately, must drop the same bits of an address: `set_cache_id`
picks the slice and `find_tag_and_set` indexes inside it.  Both are read here as arithmetic.
With `x` the interleaving block of the address, the index inside a slice is that of
`x / tiles * 2 ^ ib + offset` (`toNat_modAddr`), so two addresses of one slice are told apart
as soon as the slice id is `x % tiles` and the interleaving block is no smaller than a line
(`key_injective`).

The base class takes the slice id modulo the power of two below the number of slices, while
the cache divides by the number itself.  `slice_routing_iff` says exactly which
configurations are free of aliasing.
-/

set_option autoImplicit false

namespace MacSim.Analysis

open MacSim.Model

/-! ## The two computations as arithmetic -/

/-- The number that `find_tag_and_set` splits into tag and set, with `ib` interleaving bits,
`n` tiles and `sh` offset bits. -/
def lineKey (ib n sh a : ℕ) : ℕ := (a / 2 ^ ib / n * 2 ^ ib + a % 2 ^ ib) / 2 ^ sh

/-- Shifting a block back and filling its low bits is a sum. -/
theorem toNat_shiftLeft_or {x y : BitVec 64} {k : ℕ} (hx : x.toNat * 2 ^ k < 2 ^ 64)
    (hy : y.toNat < 2 ^ k) : (x <<< k ||| y).toNat = x.toNat * 2 ^ k + y.toNat := by
  rw [BitVec.toNat_or, BitVec.toNat_shiftLeft, Nat.shiftLeft_eq, Nat.mod_eq_of_lt hx,
    ← Nat.shiftLeft_eq, Nat.shiftLeft_add_eq_or_of_lt hy]

/-- Both branches of the tile removal compute `x / tiles`, with the offset kept. -/
theorem toNat_modAddr (p : CacheParam) (a : Addr) (hib : p.interleaveBits < 32)
    (hn : p.tiles < 2 ^ 32) :
    (p.modAddr a).toNat =
      a.toNat / 2 ^ p.interleaveBits / p.tiles * 2 ^ p.interleaveBits +
        a.toNat % 2 ^ p.interleaveBits := by
  have hpos : 0 < p.tiles := by unfold CacheParam.tiles; split <;> omega
  have hmask : (a &&& p.interleaveMask).toNat = a.toNat % 2 ^ p.interleaveBits :=
    toNat_and_mask a (by omega)
  have hlow : (a &&& p.interleaveMask).toNat < 2 ^ p.interleaveBits := by
    rw [hmask]
    exact Nat.mod_lt _ (Nat.two_pow_pos _)
  -- the block number never grows, so shifting it back cannot overflow
  have hfit (q : ℕ) (hq : q ≤ a.toNat / 2 ^ p.interleaveBits) :
      q * 2 ^ p.interleaveBits < 2 ^ 64 :=
    lt_of_le_of_lt ((Nat.mul_le_mul_right _ hq).trans (Nat.div_mul_le_self _ _)) a.isLt
  unfold CacheParam.modAddr
  split
  · rename_i ht
    have hp2 : isPow2 p.tiles = true := by
      by_contra hc
      exact ht (by simp [CacheParam.tileBits, hc])
    have htiles : p.tiles = 2 ^ p.tileBits := by
      rw [CacheParam.tileBits, if_pos hp2]
      exact (isPow2_iff hpos).mp hp2
    have hblock : (a >>> (p.interleaveBits + p.tileBits)).toNat =
        a.toNat / 2 ^ p.interleaveBits / p.tiles := by
      rw [BitVec.toNat_ushiftRight, Nat.shiftRight_eq_div_pow, pow_add, ← Nat.div_div_eq_div_mul,
        ← htiles]
    rw [toNat_shiftLeft_or (hblock ▸ hfit _ (Nat.div_le_self _ _)) hlow, hblock, hmask]
  · have hblock : (a >>> p.interleaveBits / BitVec.ofNat 64 p.tiles).toNat =
        a.toNat / 2 ^ p.interleaveBits / p.tiles := by
      rw [BitVec.toNat_udiv, BitVec.toNat_ushiftRight, Nat.shiftRight_eq_div_pow,
        BitVec.toNat_ofNat, Nat.mod_eq_of_lt (by omega)]
    rw [toNat_shiftLeft_or (hblock ▸ hfit _ (Nat.div_le_self _ _)) hlow, hblock, hmask]

/-- Tag and set together carry exactly the line key. -/
theorem findTagAndSet_eq_iff (p : CacheParam) (a b : Addr) (hib : p.interleaveBits < 32)
    (hn : p.tiles < 2 ^ 32) :
    p.findTagAndSet a = p.findTagAndSet b ↔
      lineKey p.interleaveBits p.tiles p.shiftBits a.toNat =
        lineKey p.interleaveBits p.tiles p.shiftBits b.toNat := by
  have split (x y : BitVec 64) :
      (x &&& p.tagMask, (x &&& p.setMask).toNat) = (y &&& p.tagMask, (y &&& p.setMask).toNat) ↔
        x.toNat = y.toNat := by
    rw [Prod.mk.injEq, ← BitVec.toNat_eq]
    constructor
    · rintro ⟨hout, hin⟩
      rw [eq_of_and_mask_eq hin hout]
    · intro h
      rw [BitVec.eq_of_toNat_eq h]
      exact ⟨rfl, rfl⟩
  unfold CacheParam.findTagAndSet
  split_ifs with h1
  · rw [split, BitVec.toNat_ushiftRight, BitVec.toNat_ushiftRight]
    simp only [Nat.shiftRight_eq_div_pow, lineKey, h1, Nat.div_one, Nat.div_add_mod']
  · rw [split, BitVec.toNat_ushiftRight, BitVec.toNat_ushiftRight, toNat_modAddr p a hib hn,
      toNat_modAddr p b hib hn]
    simp only [Nat.shiftRight_eq_div_pow, lineKey]

/-! ## No aliasing when the slice id is the remainder -/

/-- With interleaving blocks of at least a line, the line key keeps the quotient and the
line inside the block. -/
theorem lineKey_eq {ib n sh a : ℕ} (h : sh ≤ ib) :
    lineKey ib n sh a = a / 2 ^ ib / n * 2 ^ (ib - sh) + a % 2 ^ ib / 2 ^ sh := by
  obtain ⟨d, rfl⟩ := Nat.exists_eq_add_of_le h
  have hpow : 2 ^ (sh + d) = 2 ^ d * 2 ^ sh := by rw [pow_add, mul_comm]
  rw [lineKey, Nat.add_sub_cancel_left]
  generalize a / 2 ^ (sh + d) / n = q
  rw [hpow, ← mul_assoc, mul_comm (q * 2 ^ d), Nat.mul_add_div (Nat.two_pow_pos sh)]

/-- Equal slice ids and equal line keys leave only one line. -/
theorem key_injective {ib n sh a b : ℕ} (h : sh ≤ ib)
    (hslice : a / 2 ^ ib % n = b / 2 ^ ib % n) (hkey : lineKey ib n sh a = lineKey ib n sh b) :
    a / 2 ^ sh = b / 2 ^ sh := by
  have line (c : ℕ) : c / 2 ^ sh = c / 2 ^ ib * 2 ^ (ib - sh) + c % 2 ^ ib / 2 ^ sh := by
    have := lineKey_eq (n := 1) (a := c) h
    simpa [lineKey, Nat.div_add_mod'] using this
  have inside (c : ℕ) : c % 2 ^ ib / 2 ^ sh < 2 ^ (ib - sh) := by
    rw [Nat.div_lt_iff_lt_mul (Nat.two_pow_pos sh), ← pow_add, Nat.sub_add_cancel h]
    exact Nat.mod_lt _ (Nat.two_pow_pos ib)
  rw [lineKey_eq h, lineKey_eq h] at hkey
  -- the two digits of the key in base `2 ^ (ib - sh)`
  have hlow : a % 2 ^ ib / 2 ^ sh = b % 2 ^ ib / 2 ^ sh := by
    have := congrArg (· % 2 ^ (ib - sh)) hkey
    simpa [Nat.add_mod, Nat.mod_eq_of_lt (inside a), Nat.mod_eq_of_lt (inside b)] using this
  have hquot : a / 2 ^ ib / n = b / 2 ^ ib / n := by
    have hmul : a / 2 ^ ib / n * 2 ^ (ib - sh) = b / 2 ^ ib / n * 2 ^ (ib - sh) := by omega
    exact Nat.eq_of_mul_eq_mul_right (Nat.two_pow_pos _) hmul
  have hblock : a / 2 ^ ib = b / 2 ^ ib := by
    rw [← Nat.div_add_mod (a / 2 ^ ib) n, ← Nat.div_add_mod (b / 2 ^ ib) n, hquot, hslice]
  rw [line a, line b, hblock, hlow]

/-! ## Aliasing addresses -/

/-- Interleaving blocks smaller than a line: address `0` and the last multiple of `n` blocks
below the line of the key share slice and key. -/
theorem small_block_aliases {ib n sh : ℕ} (h : ib < sh) (hn : 2 ≤ n) :
    lineKey ib n sh (n * 2 ^ (sh - 1)) = lineKey ib n sh 0 ∧
      2 ^ sh ≤ n * 2 ^ (sh - 1) ∧ n * 2 ^ (sh - 1) / 2 ^ ib = n * 2 ^ (sh - 1 - ib) := by
  have hsplit : 2 ^ (sh - 1) = 2 ^ (sh - 1 - ib) * 2 ^ ib := by
    rw [← pow_add]
    congr 1
    omega
  have hblock : n * 2 ^ (sh - 1) / 2 ^ ib = n * 2 ^ (sh - 1 - ib) := by
    rw [hsplit, ← mul_assoc, Nat.mul_div_cancel _ (Nat.two_pow_pos ib)]
  have hmod : n * 2 ^ (sh - 1) % 2 ^ ib = 0 := by
    rw [hsplit, ← mul_assoc, Nat.mul_mod_left]
  have hhalf : 2 ^ (sh - 1) < 2 ^ sh := Nat.pow_lt_pow_right (by omega) (by omega)
  refine ⟨?_, ?_, hblock⟩
  · simp only [lineKey, hblock, hmod, Nat.mul_div_cancel_left _ (by omega : 0 < n), Nat.zero_div,
      Nat.zero_mod, Nat.zero_mul, Nat.add_zero, ← hsplit]
    exact Nat.div_eq_of_lt hhalf
  · calc 2 ^ sh = 2 * 2 ^ (sh - 1) := by rw [← pow_succ']; congr 1; omega
      _ ≤ n * 2 ^ (sh - 1) := Nat.mul_le_mul_right _ hn

/-- A number of slices that is no power of two: the block `2 ^ m` at or above the power of two
below the number of slices shares slice and key with block `0`. -/
theorem odd_count_aliases (ib sh : ℕ) {n k : ℕ} (hk : 2 ^ k < n) (hk1 : 1 ≤ k) :
    let m := max k (sh - ib)
    lineKey ib n sh (2 ^ (m + ib)) = lineKey ib n sh 0 ∧ 2 ^ sh ≤ 2 ^ (m + ib) ∧
      2 ^ (m + ib) / 2 ^ ib % 2 ^ k = 0 := by
  intro m
  have hkm : k ≤ m := le_max_left _ _
  have hsm : sh ≤ m + ib := by have := le_max_right k (sh - ib); omega
  have hblock : 2 ^ (m + ib) / 2 ^ ib = 2 ^ m := by
    rw [pow_add, Nat.mul_div_cancel _ (Nat.two_pow_pos ib)]
  have hmod : 2 ^ (m + ib) % 2 ^ ib = 0 := by rw [pow_add, Nat.mul_mod_left]
  refine ⟨?_, Nat.pow_le_pow_right (by omega) hsm, ?_⟩
  · simp only [lineKey, hblock, hmod, Nat.zero_div, Nat.zero_mod, Nat.zero_mul, Nat.add_zero]
    apply Nat.div_eq_of_lt
    rcases Nat.lt_or_ge k (sh - ib) with hlt | hge
    · have hm : m = sh - ib := max_eq_right (by omega)
      calc 2 ^ m / n * 2 ^ ib ≤ 2 ^ m / 2 ^ k * 2 ^ ib := by
            gcongr
        _ = 2 ^ (sh - k) := by
            rw [Nat.pow_div hkm (by omega), ← pow_add]
            congr 1
            omega
        _ < 2 ^ sh := Nat.pow_lt_pow_right (by omega) (by omega)
    · have hm : m = k := max_eq_left hge
      rw [hm, Nat.div_eq_of_lt hk, Nat.zero_mul]
      exact Nat.two_pow_pos sh
  · rw [hblock]
    exact Nat.mod_eq_zero_of_dvd (pow_dvd_pow 2 hkm)

/-! ## The configurations -/

/-- Knobs of a last-level cache: a power-of-two line size and at least one slice.  Knobs are
`int`s. -/
structure LlcKnobs extends AddrKnobs where
  lineBits : ℕ
  lineSize_eq : llcLineSize = 2 ^ lineBits
  lineBits_lt : lineBits < 31
  numLlc_pos : 1 ≤ numLlc
  numLlc_lt : numLlc < 2 ^ 31
  rowbuffer_pos : 1 ≤ dramRowbufferSize
  rowbuffer_lt : dramRowbufferSize < 2 ^ 31

/-- The organisations whose last level is interleaved by address. -/
abbrev SharedLlc := { org : Organisation // org ≠ .l2CoupledLocal ∧ org ≠ .noCache }

/-- Every slice id is in range, and two addresses of different lines in one slice differ in
tag or set. -/
def NoAliasing (k : LlcKnobs) (org : SharedLlc) : Prop :=
  ∀ (coreId : ℕ) (old : Level → ℕ),
    (∀ a, k.setCacheId org a coreId old .llc < k.numLlc) ∧
    ∀ a b, k.setCacheId org a coreId old .llc = k.setCacheId org b coreId old .llc →
      a >>> k.defaultLlc.shiftBits ≠ b >>> k.defaultLlc.shiftBits →
      k.defaultLlc.findTagAndSet a ≠ k.defaultLlc.findTagAndSet b

/-- The configurations in which the selector and the index drop the same bits. -/
def SlicesMatch (k : LlcKnobs) (org : SharedLlc) : Prop :=
  k.defaultInterleaving = true ∨ k.numLlc = 1 ∨
    ((isPow2 k.numLlc = true ∨ org.1 = .l2DecoupledNetwork) ∧
      (k.newInterleavingDiffGranularity = true ∨ k.llcLineSize ≤ k.dramRowbufferSize))

namespace LlcKnobs

variable (k : LlcKnobs) (org : SharedLlc)

/-- The logarithm of the number of slices stays below the width of an integer. -/
theorem log_numLlc_lt : log2Int k.numLlc < 31 := by
  rw [log2Int_eq_log]
  exact Nat.log_lt_of_lt_pow (by have := k.numLlc_pos; omega) k.numLlc_lt

/-- The divisor in the slice id: the power of two below the number of slices, or the number
itself where the override takes the remainder. -/
def sliceMod : ℕ :=
  if org.1 = .l2DecoupledNetwork then k.numLlc else 2 ^ log2Int k.numLlc

/-- The slice id is a remainder of the interleaving block. -/
theorem setCacheId_llc (a : Addr) (coreId : ℕ) (old : Level → ℕ) :
    k.setCacheId org a coreId old .llc =
      a.toNat / 2 ^ log2Int k.llcInterleaveFactor % k.sliceMod org := by
  have hlog := k.log_numLlc_lt
  have hint := k.numLlc_lt
  have hbank := toNat_bank a k.numLlc k.llcInterleaveFactor (by omega)
  have hmod : AddrKnobs.bankOrMod a k.numLlc k.llcInterleaveFactor =
      a.toNat / 2 ^ log2Int k.llcInterleaveFactor % k.numLlc := by
    unfold AddrKnobs.bankOrMod
    split_ifs with h2
    · rw [hbank, ← (isPow2_iff k.numLlc_pos).mp h2]
    · have hnum : (BitVec.ofNat 64 k.numLlc).toNat = k.numLlc := by
        rw [BitVec.toNat_ofNat, Nat.mod_eq_of_lt (by omega)]
      rw [BitVec.toNat_umod, BitVec.toNat_ushiftRight, Nat.shiftRight_eq_div_pow, hnum]
  obtain ⟨org, h1, h2⟩ := org
  cases org with
  | l2CoupledLocal => exact absurd rfl h1
  | noCache => exact absurd rfl h2
  | l2DecoupledNetwork => exact hmod
  | _ => exact hbank

/-- The choice of a slice ranges over one at least. -/
theorem sliceMod_pos : 0 < k.sliceMod org := by
  have := k.numLlc_pos
  unfold sliceMod
  split_ifs <;> positivity

/-- The choice of a slice ranges over no more than there are. -/
theorem sliceMod_le : k.sliceMod org ≤ k.numLlc := by
  unfold sliceMod
  split_ifs
  · rfl
  · exact two_pow_log2Int_le k.numLlc_pos

/-- The choice of a slice ranges over all of them, when their number or the network allows it. -/
theorem sliceMod_eq (h : isPow2 k.numLlc = true ∨ org.1 = .l2DecoupledNetwork) :
    k.sliceMod org = k.numLlc := by
  unfold sliceMod
  split_ifs with horg
  · rfl
  · exact ((isPow2_iff k.numLlc_pos).mp (h.resolve_right horg)).symm

/-- The set of a slice is read above the bits of the line. -/
theorem shiftBits_eq : k.defaultLlc.shiftBits = k.lineBits := by
  rw [CacheParam.shiftBits, AddrKnobs.defaultLlc, k.lineSize_eq, log2Int_two_pow]

/-- A slice has as many tiles as the interleaving gives it. -/
theorem tiles_eq : k.defaultLlc.tiles = if k.defaultInterleaving then 1 else k.numLlc := by
  have := k.numLlc_pos
  unfold CacheParam.tiles AddrKnobs.defaultLlc
  split_ifs <;> simp_all

/-- The number of tiles fits in an integer. -/
theorem tiles_lt : k.defaultLlc.tiles < 2 ^ 32 := by
  have := k.numLlc_lt
  rw [tiles_eq]
  split_ifs <;> omega

/-- Outside the default mode the cache and the selector use the same interleaving bits. -/
theorem interleaveBits_eq (h : k.defaultInterleaving = false) :
    k.defaultLlc.interleaveBits = log2Int k.llcInterleaveFactor := by
  simp [CacheParam.interleaveBits, AddrKnobs.defaultLlc, AddrKnobs.llcInterleaveFactor, h]

/-- The bits of the interleaving stay below the width of an integer. -/
theorem interleaveBits_lt : k.defaultLlc.interleaveBits < 31 := by
  unfold CacheParam.interleaveBits AddrKnobs.defaultLlc
  dsimp only
  split_ifs
  · decide
  · rw [k.lineSize_eq, log2Int_two_pow]
    exact k.lineBits_lt
  · rw [log2Int_eq_log]
    exact Nat.log_lt_of_lt_pow (by have := k.rowbuffer_pos; omega) k.rowbuffer_lt

/-- Outside the default mode, a line fits in an interleaving block exactly under the
condition on the row buffer. -/
theorem lineBits_le_iff (h : k.defaultInterleaving = false) :
    k.lineBits ≤ k.defaultLlc.interleaveBits ↔
      (k.newInterleavingDiffGranularity = true ∨ k.llcLineSize ≤ k.dramRowbufferSize) := by
  rw [k.interleaveBits_eq h, AddrKnobs.llcInterleaveFactor, h]
  simp only [Bool.false_eq_true, if_false]
  by_cases hd : k.newInterleavingDiffGranularity = true
  · simp [hd, k.lineSize_eq, log2Int_two_pow]
  · simp only [hd, if_false, Bool.false_eq_true, false_or, k.lineSize_eq, log2Int_eq_log]
    exact Nat.le_log_iff_pow_le (by omega) (by have := k.rowbuffer_pos; omega)

end LlcKnobs

/-! ## The exact condition -/

section

variable (k : LlcKnobs) (org : SharedLlc)

/-- No aliasing, read on the line keys of the addresses. -/
theorem noAliasing_iff_keys :
    NoAliasing k org ↔
      ∀ a b : Addr,
        a.toNat / 2 ^ log2Int k.llcInterleaveFactor % k.sliceMod org =
          b.toNat / 2 ^ log2Int k.llcInterleaveFactor % k.sliceMod org →
        a.toNat / 2 ^ k.lineBits ≠ b.toNat / 2 ^ k.lineBits →
        lineKey k.defaultLlc.interleaveBits k.defaultLlc.tiles k.lineBits a.toNat ≠
          lineKey k.defaultLlc.interleaveBits k.defaultLlc.tiles k.lineBits b.toNat := by
  have hline (a b : Addr) : a >>> k.lineBits ≠ b >>> k.lineBits ↔
      a.toNat / 2 ^ k.lineBits ≠ b.toNat / 2 ^ k.lineBits := by
    rw [ne_eq, BitVec.toNat_eq, BitVec.toNat_ushiftRight, BitVec.toNat_ushiftRight,
      Nat.shiftRight_eq_div_pow, Nat.shiftRight_eq_div_pow]
  have hkey (a b : Addr) := findTagAndSet_eq_iff k.defaultLlc a b
    (by have := k.interleaveBits_lt; omega) k.tiles_lt
  have hrange (a : Addr) :
      a.toNat / 2 ^ log2Int k.llcInterleaveFactor % k.sliceMod org < k.numLlc :=
    lt_of_lt_of_le (Nat.mod_lt _ (k.sliceMod_pos org)) (k.sliceMod_le org)
  simp only [NoAliasing, k.setCacheId_llc org, k.shiftBits_eq, hline, ne_eq, hkey] at *
  exact ⟨fun h => (h 0 fun _ => 0).2, fun h _ _ => ⟨hrange, h⟩⟩

/-- Without interleaving over tiles the key is the line itself. -/
theorem noAliasing_of_tiles_eq_one (h : k.defaultLlc.tiles = 1) : NoAliasing k org := by
  rw [noAliasing_iff_keys]
  intro a b _ hne
  simpa [lineKey, h, Nat.div_add_mod'] using hne

/-- The slice id drops what the index drops as soon as both divide by the number of slices. -/
theorem noAliasing_of_mod (hdef : k.defaultInterleaving = false)
    (hmod : k.sliceMod org = k.numLlc) (hblock : k.lineBits ≤ k.defaultLlc.interleaveBits) :
    NoAliasing k org := by
  rw [noAliasing_iff_keys]
  intro a b hslice hne hkey
  rw [k.tiles_eq, hdef] at hkey
  rw [hmod, ← k.interleaveBits_eq hdef] at hslice
  exact hne (key_injective hblock hslice hkey)

/-- An address that shares slice and key with address `0` without sharing its line. -/
theorem not_noAliasing_of_alias (x : ℕ) (hx : x < 2 ^ 64) (hdef : k.defaultInterleaving = false)
    (hslice : x / 2 ^ k.defaultLlc.interleaveBits % k.sliceMod org = 0)
    (hline : 2 ^ k.lineBits ≤ x)
    (hkey : lineKey k.defaultLlc.interleaveBits k.numLlc k.lineBits x =
      lineKey k.defaultLlc.interleaveBits k.numLlc k.lineBits 0) : ¬ NoAliasing k org := by
  rw [noAliasing_iff_keys]
  intro h
  refine h (BitVec.ofNat 64 x) 0 ?_ ?_ ?_
  all_goals rw [BitVec.toNat_ofNat, Nat.mod_eq_of_lt hx]
  · rw [← k.interleaveBits_eq hdef, hslice]
    simp
  · have hpos := Nat.div_pos hline (Nat.two_pow_pos k.lineBits)
    change x / 2 ^ k.lineBits ≠ 0 / 2 ^ k.lineBits
    rw [Nat.zero_div]
    omega
  · rw [k.tiles_eq, hdef]
    exact hkey

/-- **Routing and indexing match exactly in the listed configurations.**  The slice ids are in
range and no two lines of one slice share tag and set, if and only if the interleaving is the
default one, or there is one slice, or the slice count is a power of two (or the remainder of
the override is used) and an interleaving block holds at least a line.
SRCLINE: memory.cc:175-199, 1972-1980, 2429-2453; cache.cc:156-184 -/
theorem slice_routing_iff : NoAliasing k org ↔ SlicesMatch k org := by
  have hn := k.numLlc_pos
  constructor
  · intro h
    by_contra hc
    simp only [SlicesMatch, not_or, Bool.not_eq_true] at hc
    obtain ⟨hdef, hone, hcond⟩ := hc
    rw [← k.lineBits_le_iff hdef] at hcond
    have hib := k.interleaveBits_lt
    have hlb := k.lineBits_lt
    have hint := k.numLlc_lt
    by_cases hpow : isPow2 k.numLlc = true ∨ org.1 = .l2DecoupledNetwork
    · -- blocks smaller than a line
      have hblock : k.defaultLlc.interleaveBits < k.lineBits :=
        not_le.mp fun hle => hcond ⟨hpow, hle⟩
      obtain ⟨hkey, hline, hx⟩ := small_block_aliases (n := k.numLlc) hblock (by omega)
      refine not_noAliasing_of_alias k org _ ?_ hdef ?_ hline hkey h
      · calc k.numLlc * 2 ^ (k.lineBits - 1) < 2 ^ 31 * 2 ^ 31 := by
              apply Nat.mul_lt_mul_of_lt_of_le hint
              · exact Nat.pow_le_pow_right (by omega) (by omega)
              · positivity
          _ < 2 ^ 64 := by norm_num
      · rw [hx, k.sliceMod_eq org hpow, Nat.mul_mod_right]
    · -- the base class with a count that is no power of two
      push Not at hpow
      obtain ⟨hnp, horg⟩ := hpow
      have hmod : k.sliceMod org = 2 ^ log2Int k.numLlc := if_neg horg
      have hlt : 2 ^ log2Int k.numLlc < k.numLlc :=
        lt_of_le_of_ne (two_pow_log2Int_le hn) fun he =>
          hnp ((isPow2_iff hn).mpr he.symm)
      have hlog := k.log_numLlc_lt
      have hone' : 1 ≤ log2Int k.numLlc := by
        rw [log2Int_eq_log]
        exact Nat.log_pos (by omega) (by omega)
      obtain ⟨hkey, hline, hslice⟩ := odd_count_aliases
        k.defaultLlc.interleaveBits k.lineBits hlt hone'
      refine not_noAliasing_of_alias k org _ ?_ hdef (hmod ▸ hslice) hline hkey h
      exact Nat.pow_lt_pow_right (by omega) (by omega)
  · rintro (hdef | hone | ⟨hmod, hblock⟩)
    · exact noAliasing_of_tiles_eq_one k org (by rw [k.tiles_eq, hdef, if_pos rfl])
    · exact noAliasing_of_tiles_eq_one k org (by rw [k.tiles_eq, hone, ite_self])
    · by_cases hdef : k.defaultInterleaving = true
      · exact noAliasing_of_tiles_eq_one k org (by rw [k.tiles_eq, hdef, if_pos rfl])
      · rw [Bool.not_eq_true] at hdef
        exact noAliasing_of_mod k org hdef (k.sliceMod_eq org hmod)
          ((k.lineBits_le_iff hdef).mpr hblock)

end

/-- Three slices of 64-byte lines, interleaved by lines. -/
def threeSlices : LlcKnobs :=
  { numL3 := 1, numLlc := 3, dramNumMc := 1, l3NumSet := 1024, l3LineSize := 64,
    llcNumSet := 2 ^ 13, llcAssoc := 16, llcLineSize := 2 ^ 6, llcNumBank := 1,
    dramRowbufferSize := 2048, dramNumBanks := 8, dramInterleaveFactor := 128,
    defaultInterleaving := false, newInterleavingDiffGranularity := true,
    lineBits := 6, lineSize_eq := rfl, lineBits_lt := by decide, numLlc_pos := by decide,
    numLlc_lt := by decide, rowbuffer_pos := by decide, rowbuffer_lt := by decide }

/-- With three slices the base class sends the lines of `0x0` and `0x80` to slice `0`, where
both get tag `0` and set `0`. -/
theorem three_slices_alias :
    threeSlices.setCacheId .llcDecoupledNetwork 0x0 0 (fun _ => 0) .llc = 0 ∧
      threeSlices.setCacheId .llcDecoupledNetwork 0x80 0 (fun _ => 0) .llc = 0 ∧
      (0x0 : Addr) >>> threeSlices.defaultLlc.shiftBits ≠
        (0x80 : Addr) >>> threeSlices.defaultLlc.shiftBits ∧
      threeSlices.defaultLlc.findTagAndSet 0x0 = (0, 0) ∧
      threeSlices.defaultLlc.findTagAndSet 0x80 = (0, 0) ∧
      ¬ NoAliasing threeSlices ⟨.llcDecoupledNetwork, by decide⟩ := by
  have h : threeSlices.setCacheId .llcDecoupledNetwork 0x0 0 (fun _ => 0) .llc = 0 ∧
      threeSlices.setCacheId .llcDecoupledNetwork 0x80 0 (fun _ => 0) .llc = 0 ∧
      (0x0 : Addr) >>> threeSlices.defaultLlc.shiftBits ≠
        (0x80 : Addr) >>> threeSlices.defaultLlc.shiftBits ∧
      threeSlices.defaultLlc.findTagAndSet 0x0 = (0, 0) ∧
      threeSlices.defaultLlc.findTagAndSet 0x80 = (0, 0) := by
    decide
  obtain ⟨h0, h1, hline, hk0, hk1⟩ := h
  refine ⟨h0, h1, hline, hk0, hk1, fun hno => ?_⟩
  exact (hno 0 fun _ => 0).2 0x0 0x80 (h0.trans h1.symm) hline (hk0.trans hk1.symm)

end MacSim.Analysis
