import MacSim.Computation.BitWindow
import MacSim.Model.DramAddress

/-!
# Controller, bank, row and column of an address

`set_cache_id` chooses the memory controller of an address and `parse_addr` splits what is
left.  Both are read as arithmetic on the number of the row-sized block of an address: the
selector takes a remainder and the controller drops a divisor.  The two fit when the selector
keeps what the division drops.  The permutation of the banks adds the exclusive or with
another field of the address, which can be undone when that field is not the bank itself.
-/

set_option autoImplicit false

namespace MacSim.Analysis

open MacSim.Model MacSim.Computation

/-- Knobs of the memory controllers: row-buffer size and bank count are powers of two, and there
is a controller.  Knobs are `int`s. -/
structure MapKnobs extends AddrKnobs where
  rowBits : ℕ
  bankBits : ℕ
  rowbuffer_eq : dramRowbufferSize = 2 ^ rowBits
  banks_eq : dramNumBanks = 2 ^ bankBits
  rowBits_lt : rowBits < 31
  bankBits_lt : bankBits < 31
  numMc_pos : 1 ≤ dramNumMc
  numMc_lt : dramNumMc < 2 ^ 31

/-- Bank ids are in range, and different addresses of one controller differ in bank, row or
column. -/
def Separates (k : MapKnobs) (org : Organisation) (bankXorIndex : Bool) : Prop :=
  (∀ a, (k.parseAddr bankXorIndex a).bid.toNat < k.dramNumBanks) ∧
  ∀ (coreId coreId' : ℕ) (old old' : Level → ℕ) (a b : Addr), a ≠ b →
    k.setCacheId org a coreId old .mc = k.setCacheId org b coreId' old' .mc →
    k.parseAddr bankXorIndex a ≠ k.parseAddr bankXorIndex b

/-- The configurations in which the selector keeps what the controller drops. -/
def MapsMatch (k : MapKnobs) (org : Organisation) : Prop :=
  k.dramNumMc = 1 ∨
  (isPow2 k.dramNumMc = true ∧ (k.defaultInterleaving = true ∨ org = .l2DecoupledNetwork ∨
    log2Int k.dramInterleaveFactor = k.rowBits)) ∨
  (isPow2 k.dramNumMc = false ∧ org = .l2DecoupledNetwork ∧
    (k.defaultInterleaving = false ∨ k.bankBits = 0))

/-- The field that permutes the banks is not the bank, and for a number of controllers that is
no power of two it depends on lower bits only. -/
def XorApart (k : MapKnobs) : Prop :=
  k.bankBits = 0 ∨
  (isPow2 k.dramNumMc = true ∧ k.dramMasks.bidXorShift ≠ k.dramMasks.bidShift) ∨
  (isPow2 k.dramNumMc = false ∧ 2 ^ (k.dramMasks.bidXorShift + 1 - k.rowBits) ∣ k.dramNumMc)

namespace MapKnobs

variable (k : MapKnobs) (org : Organisation)

/-! ## The selector and the split as arithmetic -/

/-- The lowest bit of an address that the selector uses. -/
def selectShift : ℕ :=
  if org = .l2DecoupledNetwork then log2Int k.dramInterleave else log2Int k.dramInterleaveFactor

/-- The number of different selections. -/
def selectMod : ℕ :=
  if org = .l2DecoupledNetwork then k.dramNumMc else 2 ^ log2Int k.dramNumMc

/-- What `parse_addr` divides the block number by. -/
def divisor : ℕ :=
  if isPow2 k.dramNumMc = true ∧ k.defaultInterleaving = true then 1 else k.dramNumMc

/-- The number of the row-sized block of an address. -/
def block (a : Addr) : ℕ := a.toNat / 2 ^ k.rowBits

/-- The logarithm of the number of controllers stays below the width of an integer. -/
theorem log_numMc_lt : log2Int k.dramNumMc < 31 := by
  rw [log2Int_eq_log]
  exact Nat.log_lt_of_lt_pow (by have := k.numMc_pos; omega) k.numMc_lt

/-- The logarithm of the row size is the number of row bits. -/
theorem log_rowbuffer : log2Int k.dramRowbufferSize = k.rowBits := by
  rw [k.rowbuffer_eq, log2Int_two_pow]

/-- The logarithm of the number of banks is the number of bank bits. -/
theorem log_banks : log2Int k.dramNumBanks = k.bankBits := by
  rw [k.banks_eq, log2Int_two_pow]

/-- A power of two is two to its own logarithm. -/
theorem numMc_eq_two_pow (h : isPow2 k.dramNumMc = true) :
    k.dramNumMc = 2 ^ log2Int k.dramNumMc := (isPow2_iff k.numMc_pos).mp h

/-- The controller of an address is read from the selected bits. -/
theorem setCacheId_mc (a : Addr) (coreId : ℕ) (old : Level → ℕ) :
    k.setCacheId org a coreId old .mc = a.toNat / 2 ^ k.selectShift org % k.selectMod org := by
  have hlog := k.log_numMc_lt
  have hint := k.numMc_lt
  have hmod : AddrKnobs.bankOrMod a k.dramNumMc k.dramInterleave =
      a.toNat / 2 ^ log2Int k.dramInterleave % k.dramNumMc := by
    unfold AddrKnobs.bankOrMod
    split_ifs with h2
    · rw [toNat_bank a _ _ (by omega), ← k.numMc_eq_two_pow h2]
    · have hnum : (BitVec.ofNat 64 k.dramNumMc).toNat = k.dramNumMc := by
        rw [BitVec.toNat_ofNat, Nat.mod_eq_of_lt (by omega)]
      rw [BitVec.toNat_umod, BitVec.toNat_ushiftRight, Nat.shiftRight_eq_div_pow, hnum]
  cases org with
  | l2DecoupledNetwork => exact hmod
  | _ => exact toNat_bank a _ _ (by omega)

/-- What is left of an address in its controller. -/
def rest (a : Addr) : ℕ := k.block a / k.divisor

/-- Where the bank bits start depends on the interleaving and on the number of controllers. -/
theorem bidShift_eq : k.dramMasks.bidShift =
    if isPow2 k.dramNumMc = true ∧ k.defaultInterleaving = false then
      k.rowBits + log2Int k.dramNumMc else k.rowBits := by
  unfold AddrKnobs.dramMasks
  rw [k.log_rowbuffer]
  cases k.defaultInterleaving <;> cases isPow2 k.dramNumMc <;> rfl

/-- In all modes the division drops what the divisor says. -/
theorem toNat_rest (a : Addr) :
    (if isPow2 k.dramNumMc then a >>> k.dramMasks.bidShift
      else (a >>> k.dramMasks.bidShift) / BitVec.ofNat 64 k.dramNumMc).toNat = k.rest a := by
  have hint := k.numMc_lt
  have hnum : (BitVec.ofNat 64 k.dramNumMc).toNat = k.dramNumMc := by
    rw [BitVec.toNat_ofNat, Nat.mod_eq_of_lt (by omega)]
  rw [k.bidShift_eq, rest, block, divisor]
  cases hpow : isPow2 k.dramNumMc with
  | false =>
      simp only [Bool.false_eq_true, false_and, if_false]
      rw [BitVec.toNat_udiv, BitVec.toNat_ushiftRight, Nat.shiftRight_eq_div_pow, hnum]
  | true =>
      cases k.defaultInterleaving with
      | true => simp [BitVec.toNat_ushiftRight, Nat.shiftRight_eq_div_pow]
      | false =>
          simp only [if_true, and_self, Bool.false_eq_true, and_false, if_false]
          rw [BitVec.toNat_ushiftRight, Nat.shiftRight_eq_div_pow, pow_add,
            ← Nat.div_div_eq_div_mul, ← k.numMc_eq_two_pow hpow]

/-- The parts of an address, as numbers. -/
theorem parseAddr_toNat (bankXorIndex : Bool) (a : Addr) :
    (k.parseAddr bankXorIndex a).cid.toNat = a.toNat % 2 ^ k.rowBits ∧
    (k.parseAddr bankXorIndex a).rid.toNat = k.rest a / 2 ^ k.bankBits ∧
    (k.parseAddr bankXorIndex a).bid.toNat =
      if bankXorIndex then (k.rest a % 2 ^ k.bankBits) ^^^
        (a.toNat / 2 ^ k.dramMasks.bidXorShift % 2 ^ k.bankBits)
      else k.rest a % 2 ^ k.bankBits := by
  have hrow := k.rowBits_lt
  have hbank := k.bankBits_lt
  have hbid : k.dramMasks.bidMask = nBitMask k.bankBits := by
    rw [AddrKnobs.bidMask_dramMasks, k.log_banks]
  have hcid : k.dramMasks.cidMask = nBitMask k.rowBits := by
    unfold AddrKnobs.dramMasks
    rw [k.log_rowbuffer]
    split <;> rfl
  have hrid : k.dramMasks.ridShift = k.bankBits := by
    unfold AddrKnobs.dramMasks
    rw [k.log_banks]
    split <;> rfl
  refine ⟨?_, ?_, ?_⟩
  · simp only [AddrKnobs.parseAddr, hcid]
    exact toNat_and_mask a (by omega)
  · simp only [AddrKnobs.parseAddr, hrid]
    rw [BitVec.toNat_ushiftRight, Nat.shiftRight_eq_div_pow, k.toNat_rest]
  · simp only [AddrKnobs.parseAddr, hbid]
    cases bankXorIndex with
    | false =>
        simp only [Bool.false_eq_true, if_false]
        rw [toNat_and_mask _ (by omega), k.toNat_rest]
    | true =>
        simp only [if_true]
        rw [BitVec.toNat_xor, toNat_and_mask _ (by omega), k.toNat_rest,
          toNat_ushiftRight_and_mask _ _ (by omega)]

/-- Two addresses have one location exactly when column, row and bank agree. -/
theorem parseAddr_eq_iff (bankXorIndex : Bool) (a b : Addr) :
    k.parseAddr bankXorIndex a = k.parseAddr bankXorIndex b ↔
      a.toNat % 2 ^ k.rowBits = b.toNat % 2 ^ k.rowBits ∧
      k.rest a / 2 ^ k.bankBits = k.rest b / 2 ^ k.bankBits ∧
      (k.parseAddr bankXorIndex a).bid.toNat = (k.parseAddr bankXorIndex b).bid.toNat := by
  obtain ⟨hcid, hrid, -⟩ := k.parseAddr_toNat bankXorIndex a
  obtain ⟨hcid', hrid', -⟩ := k.parseAddr_toNat bankXorIndex b
  rw [DramAddr.ext_iff, BitVec.toNat_eq, BitVec.toNat_eq, BitVec.toNat_eq, hcid, hcid', hrid,
    hrid']
  tauto

/-- Without the permutation, row and bank are what is left of the address. -/
theorem parseAddr_false_eq_iff (a b : Addr) :
    k.parseAddr false a = k.parseAddr false b ↔
      a.toNat % 2 ^ k.rowBits = b.toNat % 2 ^ k.rowBits ∧ k.rest a = k.rest b := by
  rw [parseAddr_eq_iff, (k.parseAddr_toNat false a).2.2, (k.parseAddr_toNat false b).2.2]
  simp only [Bool.false_eq_true, if_false]
  refine and_congr_right fun _ => ⟨?_, fun h => by rw [h]; exact ⟨rfl, rfl⟩⟩
  rintro ⟨hdiv, hmod⟩
  rw [← Nat.div_add_mod (k.rest a) (2 ^ k.bankBits), hdiv, hmod, Nat.div_add_mod]

/-- An address is known from its block and its column. -/
theorem eq_of_block_eq {a b : Addr} (hcid : a.toNat % 2 ^ k.rowBits = b.toNat % 2 ^ k.rowBits)
    (hblock : k.block a = k.block b) : a = b := by
  rw [block, block] at hblock
  rw [BitVec.toNat_eq, ← Nat.div_add_mod a.toNat (2 ^ k.rowBits), hblock, hcid, Nat.div_add_mod]

/-- The block is known from its quotient and its remainder. -/
theorem eq_of_rest_eq {a b : Addr} (hcid : a.toNat % 2 ^ k.rowBits = b.toNat % 2 ^ k.rowBits)
    (hrest : k.rest a = k.rest b) (hrem : k.block a % k.divisor = k.block b % k.divisor) :
    a = b := by
  refine k.eq_of_block_eq hcid ?_
  rw [rest, rest] at hrest
  rw [← Nat.div_add_mod (k.block a) k.divisor, hrest, hrem, Nat.div_add_mod]

/-! ## Where the maps match -/

/-- In the decoupled network the controller bits start above the row or above the bank. -/
theorem selectShift_network : k.selectShift .l2DecoupledNetwork =
    if k.defaultInterleaving then k.rowBits + k.bankBits else k.rowBits := by
  rw [selectShift, if_pos rfl, AddrKnobs.dramInterleave]
  split_ifs
  · rw [log2Int_two_pow, k.log_rowbuffer, k.log_banks]
  · exact k.log_rowbuffer

/-- With a power of two of controllers the choice ranges over all of them. -/
theorem selectMod_of_pow2 (h : isPow2 k.dramNumMc = true) : k.selectMod org = k.dramNumMc := by
  unfold selectMod
  split_ifs
  · rfl
  · exact (k.numMc_eq_two_pow h).symm

/-- With another number the choice does not range over all of them outside the decoupled network. -/
theorem selectMod_ne (hpow : isPow2 k.dramNumMc = false) (horg : org ≠ .l2DecoupledNetwork) :
    k.selectMod org ≠ k.dramNumMc := by
  rw [selectMod, if_neg horg]
  intro heq
  have := (isPow2_iff k.numMc_pos).mpr heq.symm
  rw [hpow] at this
  exact (nomatch this)

/-- The selector keeps what the division drops exactly in the listed configurations. -/
theorem mapsMatch_iff : MapsMatch k org ↔
    k.divisor = 1 ∨ (k.selectShift org = k.rowBits ∧ k.selectMod org = k.dramNumMc) := by
  by_cases hone : k.dramNumMc = 1
  · have hdiv : k.divisor = 1 := by
      rw [divisor, hone, ite_self]
    exact ⟨fun _ => .inl hdiv, fun _ => .inl hone⟩
  cases hpow : isPow2 k.dramNumMc with
  | true =>
      have hmod := k.selectMod_of_pow2 org hpow
      cases hdef : k.defaultInterleaving with
      | true => simp [MapsMatch, divisor, hpow, hdef]
      | false =>
          have hshift : k.selectShift org = k.rowBits ↔
              org = .l2DecoupledNetwork ∨ log2Int k.dramInterleaveFactor = k.rowBits := by
            by_cases horg : org = .l2DecoupledNetwork
            · rw [horg, k.selectShift_network, hdef]
              simp
            · rw [selectShift, if_neg horg]
              simp [horg]
          simp [MapsMatch, divisor, hpow, hdef, hone, hmod, hshift]
  | false =>
      have hdiv : k.divisor = k.dramNumMc := by simp [divisor, hpow]
      by_cases horg : org = .l2DecoupledNetwork
      · have hmod : k.selectMod org = k.dramNumMc := if_pos horg
        subst horg
        rw [MapsMatch, hdiv, k.selectShift_network, hmod]
        cases hdef : k.defaultInterleaving <;> simp [hone, hpow]
      · simp [MapsMatch, hdiv, hone, hpow, horg, k.selectMod_ne org hpow horg]

/-- Where the maps match, the controller of an address tells what the division drops. -/
theorem rem_eq_of_mapsMatch (h : MapsMatch k org) {a b : Addr}
    (hmc : a.toNat / 2 ^ k.selectShift org % k.selectMod org =
      b.toNat / 2 ^ k.selectShift org % k.selectMod org) :
    k.block a % k.divisor = k.block b % k.divisor := by
  rcases (k.mapsMatch_iff org).mp h with hone | ⟨hshift, hmod⟩
  · rw [hone, Nat.mod_one, Nat.mod_one]
  · rw [hshift, hmod] at hmc
    unfold divisor
    split_ifs
    · rw [Nat.mod_one, Nat.mod_one]
    · exact hmc

/-! ## Different addresses stay different -/

/-- Without the permutation. -/
theorem eq_of_parse_false (h : MapsMatch k org) {a b : Addr}
    (hmc : a.toNat / 2 ^ k.selectShift org % k.selectMod org =
      b.toNat / 2 ^ k.selectShift org % k.selectMod org)
    (hparse : k.parseAddr false a = k.parseAddr false b) : a = b := by
  obtain ⟨hcid, hrest⟩ := (k.parseAddr_false_eq_iff a b).mp hparse
  exact k.eq_of_rest_eq hcid hrest (k.rem_eq_of_mapsMatch org h hmc)

/-- An address put together from its parts. -/
theorem toNat_eq_parts (a : Addr) : a.toNat =
    (k.divisor * k.rest a + k.block a % k.divisor) * 2 ^ k.rowBits + a.toNat % 2 ^ k.rowBits := by
  rw [rest, Nat.div_add_mod, block, Nat.div_add_mod']

/-- For a power of two, the shift of the bank is that of the row buffer and the divisor. -/
theorem divisor_eq_two_pow (h : isPow2 k.dramNumMc = true) :
    ∃ d, k.divisor = 2 ^ d ∧ k.dramMasks.bidShift = k.rowBits + d := by
  rw [k.bidShift_eq, divisor]
  cases k.defaultInterleaving with
  | true => exact ⟨0, by simp [h], by simp⟩
  | false => exact ⟨log2Int k.dramNumMc, by simp [← k.numMc_eq_two_pow h], by simp [h]⟩

/-- The permutation can be undone. -/
theorem eq_of_parse_true (h : MapsMatch k org) (hxor : XorApart k) {a b : Addr}
    (hmc : a.toNat / 2 ^ k.selectShift org % k.selectMod org =
      b.toNat / 2 ^ k.selectShift org % k.selectMod org)
    (hparse : k.parseAddr true a = k.parseAddr true b) : a = b := by
  obtain ⟨hcid, hdiv, hbid⟩ := (k.parseAddr_eq_iff true a b).mp hparse
  have hrem := k.rem_eq_of_mapsMatch org h hmc
  rw [(k.parseAddr_toNat true a).2.2, (k.parseAddr_toNat true b).2.2, if_pos rfl, if_pos rfl]
    at hbid
  have hpartsA := k.toNat_eq_parts a
  have hpartsB := k.toNat_eq_parts b
  rw [← hrem, ← hcid] at hpartsB
  -- the permuting field starts below the bits that the bank can reach
  have hbelow (t : ℕ) (ht : 2 ^ t ∣ k.divisor) (hsh : k.dramMasks.bidXorShift < k.rowBits + t) :
      a = b :=
    k.eq_of_rest_eq hcid (eq_of_xor_below ht hsh hpartsA hpartsB hdiv hbid) hrem
  obtain hbank | ⟨hpow, hne⟩ | ⟨hpow, hdvd⟩ := hxor
  · refine k.eq_of_rest_eq hcid ?_ hrem
    simpa [hbank] using hdiv
  · obtain ⟨d, hd, hshift⟩ := k.divisor_eq_two_pow hpow
    rw [hshift] at hne
    rcases Nat.lt_or_gt_of_ne hne with hlt | hgt
    · exact hbelow d (by rw [hd]) hlt
    · -- the permuting field starts above the bank
      have hrest (c : Addr) : k.rest c = c.toNat / 2 ^ (k.rowBits + d) := by
        rw [rest, block, hd, Nat.div_div_eq_div_mul, pow_add]
      have hlow (c : Addr) : c.toNat % 2 ^ (k.rowBits + d) =
          c.toNat % 2 ^ k.rowBits + 2 ^ k.rowBits * (k.block c % k.divisor) := by
        rw [pow_add, Nat.mod_mul, hd, block]
      rw [hrest, hrest] at hdiv hbid
      refine BitVec.eq_of_toNat_eq (eq_of_xor_above hgt ?_ hdiv hbid)
      rw [hlow, hlow, hcid, hrem]
  · have hdivisor : k.divisor = k.dramNumMc := by simp [divisor, hpow]
    exact hbelow _ (by rw [hdivisor]; exact hdvd) (by omega)

/-! ## Addresses that alias -/

/-- A number as an address. -/
theorem toNat_ofNat_addr {x : ℕ} (hx : x < 2 ^ 64) : (BitVec.ofNat 64 x).toNat = x := by
  rw [BitVec.toNat_ofNat, Nat.mod_eq_of_lt hx]

/-- Where the maps do not match, a block of the first group shares controller, row, bank and
column with block `0`. -/
theorem exists_alias (h : ¬ MapsMatch k org) : ∃ q, 0 < q ∧ q < k.dramNumMc ∧
    k.divisor = k.dramNumMc ∧
    q * 2 ^ k.rowBits / 2 ^ k.selectShift org % k.selectMod org = 0 := by
  rw [mapsMatch_iff, not_or, not_and_or] at h
  obtain ⟨hdiv, hsel⟩ := h
  have hpos := k.numMc_pos
  have hdivisor : k.divisor = k.dramNumMc := by
    unfold divisor at hdiv ⊢
    split_ifs at hdiv ⊢ with hc
    · exact absurd rfl hdiv
    · rfl
  have hn : k.dramNumMc ≠ 1 := fun hn => hdiv (hdivisor.trans hn)
  by_cases habove : k.rowBits < k.selectShift org
  · refine ⟨1, Nat.one_pos, by omega, hdivisor, ?_⟩
    rw [Nat.one_mul, Nat.div_eq_of_lt (Nat.pow_lt_pow_right (by omega) habove), Nat.zero_mod]
  -- from here on the selector uses the block number, shifted to the left
  obtain ⟨d, hd⟩ := Nat.exists_eq_add_of_le (not_lt.mp habove)
  have hblock (q : ℕ) : q * 2 ^ k.rowBits / 2 ^ k.selectShift org = q * 2 ^ d := by
    rw [hd, pow_add, mul_comm (2 ^ _) (2 ^ d), ← mul_assoc,
      Nat.mul_div_cancel _ (Nat.two_pow_pos _)]
  have horg : org ≠ .l2DecoupledNetwork := by
    rintro rfl
    have hshift := k.selectShift_network
    rcases hsel with hsel | hsel
    · split_ifs at hshift <;> omega
    · exact hsel (if_pos rfl)
  have hmod : k.selectMod org = 2 ^ log2Int k.dramNumMc := if_neg horg
  have hle := two_pow_log2Int_le k.numMc_pos
  by_cases hpow : 2 ^ log2Int k.dramNumMc = k.dramNumMc
  · have hd0 : d ≠ 0 := by
      rintro rfl
      rw [hmod] at hsel
      omega
    have hl : log2Int k.dramNumMc ≠ 0 := by
      intro hl
      rw [hl] at hpow
      omega
    refine ⟨2 ^ (log2Int k.dramNumMc - 1), Nat.two_pow_pos _, ?_, hdivisor, ?_⟩
    · calc 2 ^ (log2Int k.dramNumMc - 1) < 2 ^ log2Int k.dramNumMc :=
            Nat.pow_lt_pow_right (by omega) (by omega)
        _ ≤ k.dramNumMc := hle
    · rw [hblock, hmod, ← pow_add]
      exact Nat.mod_eq_zero_of_dvd (pow_dvd_pow 2 (by omega))
  · refine ⟨2 ^ log2Int k.dramNumMc, Nat.two_pow_pos _, by omega, hdivisor, ?_⟩
    rw [hblock, hmod, Nat.mul_mod_right]

end MapKnobs

/-! ## The result -/

section

variable (k : MapKnobs) (org : Organisation)

/-- The bank number of an address names a bank of the controller. -/
theorem bid_in_range (bankXorIndex : Bool) (a : Addr) :
    (k.parseAddr bankXorIndex a).bid.toNat < k.dramNumBanks := by
  have hlt : 2 ^ k.bankBits < 2 ^ 64 :=
    Nat.pow_lt_pow_right (by omega) (by have := k.bankBits_lt; omega)
  refine k.bid_lt bankXorIndex a ?_ ?_
  · rw [k.banks_eq]
    exact Nat.two_pow_pos _
  · rw [k.banks_eq]
    exact hlt

/-- An address other than `0` with the controller and the parts of `0`. -/
theorem not_separates_of_alias (bankXorIndex : Bool) {x : ℕ} (hpos : 0 < x) (hx : x < 2 ^ 64)
    (hmc : x / 2 ^ k.selectShift org % k.selectMod org = 0)
    (hparse : k.parseAddr bankXorIndex (BitVec.ofNat 64 x) = k.parseAddr bankXorIndex 0) :
    ¬ Separates k org bankXorIndex := by
  intro h
  refine h.2 0 0 (fun _ => 0) (fun _ => 0) (BitVec.ofNat 64 x) 0 ?_ ?_ hparse
  · intro heq
    have := congrArg BitVec.toNat heq
    rw [MapKnobs.toNat_ofNat_addr hx] at this
    simp at this
    omega
  · rw [k.setCacheId_mc, k.setCacheId_mc, MapKnobs.toNat_ofNat_addr hx, hmc]
    simp

/-- Without the exclusive or, addresses are kept apart exactly when the two maps match. -/
theorem separates_false_iff : Separates k org false ↔ MapsMatch k org := by
  constructor
  · intro h
    by_contra hmatch
    obtain ⟨q, hq, hlt, hdivisor, hmc⟩ := k.exists_alias org hmatch
    have hx : q * 2 ^ k.rowBits < 2 ^ 64 := by
      have hint := k.numMc_lt
      have hrow : 2 ^ k.rowBits ≤ 2 ^ 31 :=
        Nat.pow_le_pow_right (by omega) (by have := k.rowBits_lt; omega)
      calc q * 2 ^ k.rowBits ≤ 2 ^ 31 * 2 ^ 31 := Nat.mul_le_mul (by omega) hrow
        _ < 2 ^ 64 := by norm_num
    refine not_separates_of_alias k org false (Nat.mul_pos hq (Nat.two_pow_pos _)) hx hmc ?_ h
    rw [k.parseAddr_false_eq_iff, MapKnobs.rest, MapKnobs.rest, MapKnobs.block, MapKnobs.block,
      MapKnobs.toNat_ofNat_addr hx, hdivisor]
    refine ⟨?_, ?_⟩
    · simp
    · rw [Nat.mul_div_cancel _ (Nat.two_pow_pos _), Nat.div_eq_of_lt hlt]
      simp
  · intro h
    refine ⟨bid_in_range k false, ?_⟩
    intro coreId coreId' old old' a b hne hmc hparse
    rw [k.setCacheId_mc, k.setCacheId_mc] at hmc
    exact hne (k.eq_of_parse_false org h hmc hparse)

/-- With the exclusive or, matching maps and rows that stay apart are enough. -/
theorem separates_true_of (h : MapsMatch k org) (hxor : XorApart k) : Separates k org true := by
  refine ⟨bid_in_range k true, ?_⟩
  intro coreId coreId' old old' a b hne hmc hparse
  rw [k.setCacheId_mc, k.setCacheId_mc] at hmc
  exact hne (k.eq_of_parse_true org h hxor hmc hparse)

/-- A permutation by the bank itself makes all banks one. -/
theorem not_separates_true (hpow : isPow2 k.dramNumMc = true) (hxor : ¬ XorApart k) :
    ¬ Separates k .l2DecoupledNetwork true := by
  simp only [XorApart, hpow, true_and, not_or, Bool.true_eq_false, false_and, not_false_eq_true,
    and_true, not_not] at hxor
  obtain ⟨hbank, hshift⟩ := hxor
  obtain ⟨d, hd, hbid⟩ := k.divisor_eq_two_pow hpow
  have hdlt : d < 31 := by
    rw [← Nat.pow_lt_pow_iff_right (a := 2) (by omega), ← hd]
    have hpos := k.numMc_pos
    have hint := k.numMc_lt
    unfold MapKnobs.divisor
    split_ifs <;> omega
  have hrow := k.rowBits_lt
  have hx : 2 ^ (k.rowBits + d) < 2 ^ 64 := Nat.pow_lt_pow_right (by omega) (by omega)
  have hrest : k.rest (BitVec.ofNat 64 (2 ^ (k.rowBits + d))) = 1 := by
    rw [MapKnobs.rest, MapKnobs.block, MapKnobs.toNat_ofNat_addr hx, hd,
      Nat.div_div_eq_div_mul, ← pow_add, Nat.div_self (Nat.two_pow_pos _)]
  have hrest0 : k.rest 0 = 0 := by simp [MapKnobs.rest, MapKnobs.block]
  refine not_separates_of_alias k _ true (Nat.two_pow_pos _) hx ?_ ?_
  · rw [k.selectShift_network, MapKnobs.selectMod, if_pos rfl]
    cases hdef : k.defaultInterleaving with
    | true =>
        have hd0 : 2 ^ d = 1 := by simpa [MapKnobs.divisor, hpow, hdef] using hd.symm
        have hlt : 2 ^ (k.rowBits + d) < 2 ^ (k.rowBits + k.bankBits) := by
          rw [pow_add, hd0, Nat.mul_one]
          exact Nat.pow_lt_pow_right (by omega) (by omega)
        rw [if_pos rfl, Nat.div_eq_of_lt hlt, Nat.zero_mod]
    | false =>
        have hd1 : k.dramNumMc = 2 ^ d := by simpa [MapKnobs.divisor, hdef] using hd
        simp only [Bool.false_eq_true, if_false]
        rw [pow_add, Nat.mul_div_cancel_left _ (Nat.two_pow_pos _), hd1, Nat.mod_self]
  · have hone : 1 < 2 ^ k.bankBits := Nat.one_lt_two_pow hbank
    rw [k.parseAddr_eq_iff, (k.parseAddr_toNat true _).2.2, (k.parseAddr_toNat true _).2.2, hrest,
      hrest0, hshift, hbid, MapKnobs.toNat_ofNat_addr hx]
    refine ⟨?_, ?_, ?_⟩
    · rw [pow_add]
      simp
    · rw [Nat.div_eq_of_lt hone, Nat.zero_div]
    · rw [Nat.div_self (Nat.two_pow_pos _)]
      simp

/-- **Addresses of one controller are told apart in the listed configurations.**  Without the
permutation of the banks: exactly where the selector keeps what the controller drops.  With
it: where moreover the permuting field is apart from the bank; and for a power of two of
controllers behind the override, exactly there.
SRCLINE: memory.cc:1972-1980, 2429-2453; dram_ctrl.cc:191-220, 826-854 -/
theorem dram_map_separates :
    (Separates k org false ↔ MapsMatch k org) ∧
    (MapsMatch k org → XorApart k → Separates k org true) ∧
    (isPow2 k.dramNumMc = true →
      (Separates k .l2DecoupledNetwork true ↔ XorApart k)) := by
  refine ⟨separates_false_iff k org, separates_true_of k org, fun hpow => ⟨?_, ?_⟩⟩
  · intro h
    by_contra hxor
    exact not_separates_true k hpow hxor h
  · intro hxor
    exact separates_true_of k _ (.inr (.inl ⟨hpow, .inr (.inl rfl)⟩)) hxor

end

/-- The default knobs for `n` controllers. -/
def defaultMap (n : ℕ) (hpos : 1 ≤ n) (hlt : n < 2 ^ 31) : MapKnobs :=
  { numL3 := 1, numLlc := 1, dramNumMc := n, l3NumSet := 1024, l3LineSize := 64
    llcNumSet := 2 ^ 13, llcAssoc := 16, llcLineSize := 64, llcNumBank := 1
    dramRowbufferSize := 2048, dramNumBanks := 8, dramInterleaveFactor := 128
    defaultInterleaving := true, newInterleavingDiffGranularity := false
    rowBits := 11, bankBits := 3
    rowbuffer_eq := rfl, banks_eq := rfl, rowBits_lt := by decide, bankBits_lt := by decide
    numMc_pos := hpos, numMc_lt := hlt }

/-- Four controllers with the default knobs. -/
theorem dram_map_separates_four :
    Separates (defaultMap 4 (by decide) (by decide)) .llcDecoupledNetwork true := by
  refine (dram_map_separates _ .llcDecoupledNetwork).2.1 ?_ ?_
  · exact .inr (.inl ⟨rfl, .inl rfl⟩)
  · exact .inr (.inl ⟨rfl, by decide⟩)

/-- With three controllers the base class sends the addresses `0x0` and `0x1000` to controller
`0`, where both are bank `0`, row `0` and column `0`, with and without the permutation. -/
theorem three_controllers_alias :
    ¬ Separates (defaultMap 3 (by decide) (by decide)) .llcDecoupledNetwork true ∧
    ¬ Separates (defaultMap 3 (by decide) (by decide)) .llcDecoupledNetwork false := by
  constructor
  · intro h
    exact h.2 0 0 (fun _ => 0) (fun _ => 0) 0x0 0x1000 (by decide) (by decide) (by decide)
  · intro h
    exact h.2 0 0 (fun _ => 0) (fun _ => 0) 0x0 0x1000 (by decide) (by decide) (by decide)

end MacSim.Analysis
