import MacSim.Model.Cache

/-!
# Where an address goes

The memory system is built in one of seven organisations.  Each fixes, for a request, the
index of the cache to use at every level; `set_cache_id` computes these indices from the
core of the request and from bits of its address.  The bits are chosen by interleaving
factors that the constructor of `memory_c` derives from the knobs, and the last-level cache
is built by `default_llc` from the same knobs.
-/

set_option autoImplicit false

namespace MacSim.Model

/-- `MEMORY_TYPE`, the levels a request can be at.
SRCLINE: memreq_info.h:56-63 -/
inductive Level where
  | l1 | l2 | l3 | llc | mc
  deriving DecidableEq, Repr

namespace Level

/-- `m_level + 1`. -/
def lower : Level → Level
  | l1 => l2 | l2 => l3 | l3 => llc | llc => mc | mc => mc

/-- `m_level - 1`. -/
def upper : Level → Level
  | l1 => l1 | l2 => l1 | l3 => l2 | llc => l3 | mc => llc

end Level

/-- The subclasses of `memory_c`.
SRCLINE: memory.cc:149-172 -/
inductive Organisation where
  | llcCoupledNetwork
  | llcDecoupledNetwork
  | l2CoupledLocal
  | noCache
  | l2DecoupledNetwork
  | l2DecoupledLocal
  | igpuNetwork
  deriving DecidableEq, Repr

/-- The knobs behind the address map. -/
structure AddrKnobs where
  numL3 : ℕ
  numLlc : ℕ
  dramNumMc : ℕ
  l3NumSet : ℕ
  l3LineSize : ℕ
  llcNumSet : ℕ
  llcAssoc : ℕ
  llcLineSize : ℕ
  llcNumBank : ℕ
  dramRowbufferSize : ℕ
  dramNumBanks : ℕ
  dramInterleaveFactor : ℕ
  defaultInterleaving : Bool
  newInterleavingDiffGranularity : Bool
  deriving DecidableEq, Repr

namespace AddrKnobs

/-- `m_l3_interleave_factor`.  The constructor of `memory_c` asserts that one of the three modes
is on, so the last of them is not asked for.
SRCLINE: memory.cc:1665-1695 -/
def l3InterleaveFactor (k : AddrKnobs) : ℕ :=
  if k.defaultInterleaving then 2 ^ (log2Int k.l3NumSet + log2Int k.l3LineSize)
  else if k.newInterleavingDiffGranularity then k.l3LineSize
  else k.dramRowbufferSize

/-- `m_llc_interleave_factor`. -/
def llcInterleaveFactor (k : AddrKnobs) : ℕ :=
  if k.defaultInterleaving then 2 ^ (log2Int k.llcNumSet + log2Int k.llcLineSize)
  else if k.newInterleavingDiffGranularity then k.llcLineSize
  else k.dramRowbufferSize

/-- `m_dram_interleave_factor`. -/
def dramInterleave (k : AddrKnobs) : ℕ :=
  if k.defaultInterleaving then 2 ^ (log2Int k.dramRowbufferSize + log2Int k.dramNumBanks)
  else k.dramRowbufferSize

/-- `default_llc`: the parameters of one slice of the last-level cache.
SRCLINE: memory.cc:175-199 -/
def defaultLlc (k : AddrKnobs) : CacheParam :=
  { numSet := k.llcNumSet
    assoc := k.llcAssoc
    lineSize := k.llcLineSize
    bankNum := k.llcNumBank
    cacheByPass := false
    enablePartition := false
    numTiles := if k.defaultInterleaving then 1 else k.numLlc
    interleaveFactor :=
      if k.defaultInterleaving then 0
      else if k.newInterleavingDiffGranularity then k.llcLineSize
      else k.dramRowbufferSize }

/-- The index of a slice among `num`, in the power-of-two or in the general form.
SRCLINE: memory.cc:2441-2446 -/
def bankOrMod (a : Addr) (num interleave : ℕ) : ℕ :=
  if isPow2 num then (bank a num interleave).toNat
  else ((a >>> log2Int interleave) % BitVec.ofNat 64 num).toNat

/-- `set_cache_id` of `memory_c` and of each override: the new cache indices of a request
of core `coreId` at address `a`, given its old ones (two overrides leave the third level
alone).
SRCLINE: memory.cc:1972-1980, 2372-2378, 2397-2403, 2429-2453, 2500-2508, 2535-2543 -/
def setCacheId (k : AddrKnobs) (org : Organisation) (a : Addr) (coreId : ℕ)
    (old : Level → ℕ) : Level → ℕ
  | .l1 => coreId
  | .l2 => coreId
  | .l3 =>
      match org with
      | .l2CoupledLocal | .noCache => old .l3
      | .l2DecoupledNetwork => bankOrMod a k.numL3 k.l3InterleaveFactor
      | _ => (bank a k.numL3 k.l3InterleaveFactor).toNat
  | .llc =>
      match org with
      | .l2CoupledLocal | .noCache => coreId
      | .l2DecoupledNetwork => bankOrMod a k.numLlc k.llcInterleaveFactor
      | _ => (bank a k.numLlc k.llcInterleaveFactor).toNat
  | .mc =>
      match org with
      | .l2DecoupledNetwork => bankOrMod a k.dramNumMc k.dramInterleave
      | _ => (bank a k.dramNumMc k.dramInterleaveFactor).toNat

end AddrKnobs

end MacSim.Model
