import MacSim.Model.Word

/-!
# Logarithms by bit search

The memory encryption engine computes the number of offset bits of a line with a search for
the highest bit of the line size: the upper half word first, then the upper half of the lowest
byte, and so on.
-/

set_option autoImplicit false

namespace MacSim.Model

/-- `floor_log2`.
SRCLINE: mee.cc:144-165 -/
def floorLog2 (x : BitVec 64) : ℕ :=
  let y := if x &&& 0xffffffff00000000#64 ≠ 0 then 32 else 0
  let ux := if x &&& 0xffffffff00000000#64 ≠ 0 then x >>> 32 else x
  if ux &&& 0xf0#64 ≠ 0 then y + 4
  else if ux &&& 0xc#64 ≠ 0 then y + 2
  else if ux &&& 0x2#64 ≠ 0 then y + 1
  else y

/-- `ceil_log2`.
SRCLINE: mee.cc:167-172 -/
def ceilLog2 (x : BitVec 64) : ℕ := if x = 1 then 0 else floorLog2 (x - 1) + 1

/-- `line_offset_bits` of a line size.
SRCLINE: counter_mode.cc:61, 70, data_mac.cc:59, 68, bonsai_mt.cc:65, 76 -/
def lineOffsetBits (lineSz : Addr) : ℕ := ceilLog2 lineSz

end MacSim.Model
