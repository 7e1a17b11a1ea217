import MacSim.Model.AddressMap

/-!
# The address map of the DRAM controller

A request that `set_cache_id` has sent to a memory controller is split there into a bank, a
row and a column.  The constructor of `dram_ctrl_c` fixes masks and shifts from the knobs, and
`parse_addr` applies them; the bits that chose the controller are dropped by a shift when the
number of controllers is a power of two and by a division otherwise.
-/

set_option autoImplicit false

namespace MacSim.Model

/-- The masks and shifts of `dram_ctrl_c`. -/
structure DramMasks where
  cidMask : BitVec 64
  bidMask : BitVec 64
  bidShift : ℕ
  ridShift : ℕ
  bidXorShift : ℕ
  deriving DecidableEq, Repr

/-- The result of `parse_addr`. -/
@[ext]
structure DramAddr where
  bid : BitVec 64
  rid : BitVec 64
  cid : BitVec 64
  deriving DecidableEq, Repr

namespace AddrKnobs

/-- The masks and shifts that the constructor of `dram_ctrl_c` computes for the interleaving
modes that `accepted` lets through.
SRCLINE: dram_ctrl.cc:191-220 -/
def dramMasks (k : AddrKnobs) : DramMasks :=
  if k.defaultInterleaving then
    { cidMask := nBitMask (log2Int k.dramRowbufferSize)
      bidShift := log2Int k.dramRowbufferSize
      bidMask := nBitMask (log2Int k.dramNumBanks)
      ridShift := log2Int k.dramNumBanks
      bidXorShift := log2Int k.llcLineSize + log2Int 512 }
  else
    { cidMask := nBitMask (log2Int k.dramRowbufferSize)
      bidShift :=
        if isPow2 k.dramNumMc then log2Int k.dramRowbufferSize + log2Int k.dramNumMc
        else log2Int k.dramRowbufferSize
      bidMask := nBitMask (log2Int k.dramNumBanks)
      ridShift := log2Int k.dramNumBanks
      bidXorShift := log2Int k.llcLineSize + log2Int k.numLlc + log2Int k.llcNumSet + 5 }

/-- `dram_ctrl_c::parse_addr`; `bankXorIndex` is `KNOB_DRAM_BANK_XOR_INDEX`.
SRCLINE: dram_ctrl.cc:826-854 -/
def parseAddr (k : AddrKnobs) (bankXorIndex : Bool) (addr : Addr) : DramAddr :=
  let m := k.dramMasks
  let bidXor := (addr >>> m.bidXorShift) &&& m.bidMask
  let cid := addr &&& m.cidMask
  let rest :=
    if isPow2 k.dramNumMc then addr >>> m.bidShift
    else (addr >>> m.bidShift) / BitVec.ofNat 64 k.dramNumMc
  let bid := rest &&& m.bidMask
  { bid := if bankXorIndex then bid ^^^ bidXor else bid
    rid := rest >>> m.ridShift
    cid := cid }

/-- The bank mask is the same in all interleaving modes. -/
theorem bidMask_dramMasks (k : AddrKnobs) :
    k.dramMasks.bidMask = nBitMask (log2Int k.dramNumBanks) := by
  unfold dramMasks
  split <;> rfl

/-- Whatever is masked or permuted, a bank id stays within the mask. -/
theorem bid_lt_two_pow (k : AddrKnobs) (bankXorIndex : Bool) (addr : Addr)
    (h : log2Int k.dramNumBanks < 64) :
    (k.parseAddr bankXorIndex addr).bid.toNat < 2 ^ log2Int k.dramNumBanks := by
  have hmask (x : BitVec 64) :
      (x &&& nBitMask (log2Int k.dramNumBanks)).toNat < 2 ^ log2Int k.dramNumBanks := by
    rw [toNat_and_mask x h]
    exact Nat.mod_lt _ (Nat.two_pow_pos _)
  simp only [parseAddr, bidMask_dramMasks]
  cases bankXorIndex with
  | false => exact hmask _
  | true => exact Nat.xor_lt_two_pow (hmask _) (hmask _)

/-- A bank id is the number of a bank. -/
theorem bid_lt (k : AddrKnobs) (bankXorIndex : Bool) (addr : Addr) (hpos : 0 < k.dramNumBanks)
    (hlt : k.dramNumBanks < 2 ^ 64) :
    (k.parseAddr bankXorIndex addr).bid.toNat < k.dramNumBanks := by
  have hlog : log2Int k.dramNumBanks < 64 := by
    rw [← Nat.pow_lt_pow_iff_right (a := 2) (by omega)]
    exact lt_of_le_of_lt (two_pow_log2Int_le hpos) hlt
  exact lt_of_lt_of_le (bid_lt_two_pow k bankXorIndex addr hlog) (two_pow_log2Int_le hpos)

end AddrKnobs

end MacSim.Model
