import MacSim.Model.Word

/-!
# The set-associative cache

`cache_c` of `cache.cc`, generic in the data a line carries (the source's `void *m_data`).
`CacheParam` holds what the constructor fixes; the masks and bit counts it precomputes are
functions of it.  A line handed out by `access_cache` or `insert_cache` is a pointer in the
source and a `Slot`, a set index with a way index, here: callers read and write the data of
a line through its slot.

An access returns the first way of the set that is valid and carries the tag.  An insertion
picks a way by the replacement policy, reports the base address of a valid victim, and
leaves the data of that way in place for the caller to inspect before overwriting it.
-/

set_option autoImplicit false

namespace MacSim.Model

/-- What the constructor of `cache_c` keeps of its arguments.
SRCLINE: cache.cc:71-131 -/
structure CacheParam where
  numSet : ℕ
  assoc : ℕ
  lineSize : ℕ
  bankNum : ℕ
  cacheByPass : Bool
  enablePartition : Bool
  numTiles : ℕ
  interleaveFactor : ℕ
  deriving DecidableEq, Repr

/-- The knobs that `cache_c` reads. -/
structure CacheKnobs where
  usePseudoLru : Bool
  heteroStaticCachePartition : Bool
  heteroStaticCpuPartition : ℕ
  deriving DecidableEq, Repr

/-- `MAX_INT`, the start value of the search for the least recently used way.
SRCLINE: global_defs.h:193 -/
def maxInt : Counter := 0x7fffffff#64

namespace CacheParam

/-- `m_num_tiles`. -/
def tiles (p : CacheParam) : ℕ := if 0 < p.numTiles then p.numTiles else 1

def shiftBits (p : CacheParam) : ℕ := log2Int p.lineSize

def setMask (p : CacheParam) : BitVec 64 := nBitMask (log2Int p.numSet)

def tagMask (p : CacheParam) : BitVec 64 := ~~~p.setMask

def offsetMask (p : CacheParam) : BitVec 64 := nBitMask p.shiftBits

/-- `m_tile_bits`: zero when the number of tiles is not a power of two. -/
def tileBits (p : CacheParam) : ℕ := if isPow2 p.tiles then log2Int p.tiles else 0

def interleaveBits (p : CacheParam) : ℕ := log2Int p.interleaveFactor

def interleaveMask (p : CacheParam) : BitVec 64 := nBitMask p.interleaveBits

/-- The address with the tile id removed, as both `find_tag_and_set` and `get_bank_num`
compute it.
SRCLINE: cache.cc:161-174 -/
def modAddr (p : CacheParam) (addr : Addr) : Addr :=
  if p.tileBits ≠ 0 then
    ((addr >>> (p.interleaveBits + p.tileBits)) <<< p.interleaveBits) |||
      (addr &&& p.interleaveMask)
  else
    (((addr >>> p.interleaveBits) / BitVec.ofNat 64 p.tiles) <<< p.interleaveBits) |||
      (addr &&& p.interleaveMask)

/-- `cache_c::find_tag_and_set`.
SRCLINE: cache.cc:156-184 -/
def findTagAndSet (p : CacheParam) (addr : Addr) : Addr × ℕ :=
  if p.tiles = 1 then
    ((addr >>> p.shiftBits) &&& p.tagMask, ((addr >>> p.shiftBits) &&& p.setMask).toNat)
  else
    ((p.modAddr addr >>> p.shiftBits) &&& p.tagMask,
      ((p.modAddr addr >>> p.shiftBits) &&& p.setMask).toNat)

/-- `cache_c::base_cache_line`.
SRCLINE: cache.cc:442-444 -/
def baseCacheLine (p : CacheParam) (addr : Addr) : Addr := addr &&& ~~~p.offsetMask

/-- `cache_c::get_bank_num`.
SRCLINE: cache.cc:459-479 -/
def getBankNum (p : CacheParam) (addr : Addr) : ℕ :=
  if p.tiles = 1 then
    ((addr >>> p.shiftBits) &&& nBitMask (log2Int p.bankNum)).toNat
  else
    ((p.modAddr addr >>> p.shiftBits) &&& nBitMask (log2Int p.bankNum)).toNat

end CacheParam

/-- `cache_entry_c`. -/
structure CacheEntry (δ : Type) where
  valid : Bool
  tag : Addr
  base : Addr
  lastAccessTime : Counter
  accessCounter : Counter
  data : δ
  pref : Bool
  dirty : Bool
  applId : ℕ
  gpuline : Bool
  skip : Bool
  deriving DecidableEq, Repr

/-- `cache_set_c`. -/
structure CacheSet (δ : Type) where
  entry : List (CacheEntry δ)
  numCpuLine : ℤ
  numGpuLine : ℤ
  deriving Repr

/-- `cache_c`. -/
structure Cache (δ : Type) where
  param : CacheParam
  set : ℕ → CacheSet δ
  numCpuLine : ℤ
  numGpuLine : ℤ
  insertCount : Counter

/-- A line of a cache: the value of a `cache_entry_c *` or of its `m_data`. -/
structure Slot where
  set : ℕ
  way : ℕ
  deriving DecidableEq, Repr

namespace CacheEntry

variable {δ : Type}

/-- The hit test of every walk through a set. -/
def holds (tag : Addr) (line : CacheEntry δ) : Bool := line.valid && line.tag == tag

/-- A way as the constructor leaves it. -/
def fresh [Inhabited δ] : CacheEntry δ :=
  { valid := false, tag := 0, base := 0, lastAccessTime := 0, accessCounter := 0,
    data := default, pref := false, dirty := false, applId := 0, gpuline := false,
    skip := false }

/-- `cache_c::null_cache_line_fields`; the data is cleared by `memset`.
SRCLINE: cache.cc:405-416 -/
def nullCacheLineFields [Inhabited δ] (line : CacheEntry δ) : CacheEntry δ :=
  { line with tag := 0, valid := false, base := 0, data := default }

end CacheEntry

namespace Cache

variable {δ : Type}

/-- The state after construction.  `cache_set_c` does not initialise its line counters, so
their first values are an argument.
SRCLINE: cache.cc:71-131 -/
def new [Inhabited δ] (param : CacheParam) (junk : ℕ → ℤ × ℤ) : Cache δ :=
  { param := param
    set := fun i =>
      { entry := List.replicate param.assoc CacheEntry.fresh
        numCpuLine := (junk i).1
        numGpuLine := (junk i).2 }
    numCpuLine := 0
    numGpuLine := 0
    insertCount := 0 }

/-- Replace the entries of one set. -/
def modifySet (c : Cache δ) (i : ℕ) (f : CacheSet δ → CacheSet δ) : Cache δ :=
  { c with set := Function.update c.set i (f (c.set i)) }

/-- Rewrite one line. -/
def modifyEntry (c : Cache δ) (l : Slot) (f : CacheEntry δ → CacheEntry δ) : Cache δ :=
  c.modifySet l.set fun s => { s with entry := s.entry.modify l.way f }

/-- Rewrite the data of one line, as a caller does through `m_data`. -/
def modifyData (c : Cache δ) (l : Slot) (f : δ → δ) : Cache δ :=
  c.modifyEntry l fun line => { line with data := f line.data }

/-- The data of one line. -/
def data? (c : Cache δ) (l : Slot) : Option δ := ((c.set l.set).entry[l.way]?).map (·.data)

/-- The walk through the set of an address: its first valid way with the tag. -/
def lookup (c : Cache δ) (addr : Addr) : Option Slot :=
  let p := c.param.findTagAndSet addr
  ((c.set p.2).entry.findIdx? (CacheEntry.holds p.1)).map (Slot.mk p.2)

/-- `cache_c::access_cache` at simulation cycle `now`.
SRCLINE: cache.cc:187-222 -/
def accessCache (c : Cache δ) (now : Counter) (addr : Addr) (updateRepl : Bool) :
    Option Slot × Cache δ :=
  if c.param.cacheByPass then (none, c)
  else
    match c.lookup addr with
    | none => (none, c)
    | some l =>
        if updateRepl then
          (some l, c.modifyEntry l fun line => { line with pref := false, lastAccessTime := now })
        else (some l, c)

/-- The loop of `find_replacement_line` without pseudo-LRU: the first invalid way, else the
first way with the least access time below the start value.
SRCLINE: cache.cc:253-272 -/
def lruLoop : List (CacheEntry δ) → ℕ → ℕ → Counter → ℕ
  | [], _, lruInd, _ => lruInd
  | line :: rest, i, lruInd, lruTime =>
      if !line.valid then i
      else if line.lastAccessTime < lruTime then lruLoop rest (i + 1) i line.lastAccessTime
      else lruLoop rest (i + 1) lruInd lruTime

/-- `cache_c::find_replacement_line`.  With pseudo-LRU a first pass that finds nothing clears
every access time, after which the second pass stops at way `0`.
SRCLINE: cache.cc:236-273 -/
def findReplacementLine (k : CacheKnobs) (s : CacheSet δ) : ℕ × CacheSet δ :=
  if k.usePseudoLru then
    match s.entry.findIdx? fun line => !line.valid || line.lastAccessTime == 0 with
    | some i => (i, s)
    | none => (0, { s with entry := s.entry.map fun line => { line with lastAccessTime := 0 } })
  else (lruLoop s.entry 0 0 maxInt, s)

/-- The loop of `find_replacement_line_from_same_type`; `none` is the source's `-1`.
SRCLINE: cache.cc:292-306 -/
def sameTypeLoop (gpuline room : Bool) :
    List (CacheEntry δ) → ℕ → Option ℕ → Counter → Option ℕ
  | [], _, lruIndex, _ => lruIndex
  | line :: rest, i, lruIndex, lruTime =>
      if !line.valid && room then some i
      else if line.valid && line.gpuline == gpuline && decide (line.lastAccessTime < lruTime) then
        sameTypeLoop gpuline room rest (i + 1) (some i) line.lastAccessTime
      else sameTypeLoop gpuline room rest (i + 1) lruIndex lruTime

/-- `cache_c::find_replacement_line_from_same_type`; `none` is a failed assertion.
SRCLINE: cache.cc:275-318 -/
def findReplacementLineFromSameType (k : CacheKnobs) (assoc : ℕ) (s : CacheSet δ)
    (gpuline : Bool) : Option ℕ :=
  let count := if gpuline then s.numGpuLine else s.numCpuLine
  let max : ℤ := if gpuline then assoc - k.heteroStaticCpuPartition else k.heteroStaticCpuPartition
  sameTypeLoop gpuline (decide (count < max)) s.entry 0 none (BitVec.allOnes 64)

/-- The change of a line counter when a line of the given kind comes or goes. -/
def bump (n : ℤ) (gpuline : Bool) (c : Cache δ) (i : ℕ) : Cache δ :=
  if gpuline then
    { c.modifySet i fun s => { s with numGpuLine := s.numGpuLine + n } with
      numGpuLine := c.numGpuLine + n }
  else
    { c.modifySet i fun s => { s with numCpuLine := s.numCpuLine + n } with
      numCpuLine := c.numCpuLine + n }

/-- `cache_c::update_set_on_replacement`.
SRCLINE: cache.cc:393-402 -/
def updateSetOnReplacement (c : Cache δ) (i : ℕ) (gpuline : Bool) : Cache δ := bump (-1) gpuline c i

/-- `cache_c::initialize_cache_line`.
SRCLINE: cache.cc:321-343 -/
def initializeCacheLine (c : Cache δ) (now : Counter) (l : Slot) (tag addr : Addr)
    (applId : ℕ) (gpuline : Bool) : Cache δ :=
  let c := c.modifyEntry l fun line =>
    { line with
      valid := true, tag := tag, base := addr &&& ~~~c.param.offsetMask, accessCounter := 0,
      lastAccessTime := now, pref := false, skip := false, applId := applId,
      gpuline := gpuline }
  bump 1 gpuline c l.set

/-- The way `insert_cache` replaces; `none` is the failed assertion of the partitioned
search. -/
def victimWay (c : Cache δ) (k : CacheKnobs) (i : ℕ) (gpuline : Bool) :
    Option (ℕ × CacheSet δ) :=
  if k.heteroStaticCachePartition && c.param.enablePartition then
    (findReplacementLineFromSameType k c.param.assoc (c.set i) gpuline).map fun w => (w, c.set i)
  else some (findReplacementLine k (c.set i))

/-- `cache_c::insert_cache`: the line used, the base address of a valid victim (else `0`)
and the new cache.
SRCLINE: cache.cc:350-391 -/
def insertCache (c : Cache δ) (k : CacheKnobs) (now : Counter) (addr : Addr) (applId : ℕ)
    (gpuline : Bool) : Option (Slot × Addr × Cache δ) :=
  let p := c.param.findTagAndSet addr
  match c.victimWay k p.2 gpuline with
  | none => none
  | some (way, s) =>
      let c := c.modifySet p.2 fun _ => s
      match s.entry[way]? with
      | none => none
      | some line =>
          let updatedLine := if line.valid then line.base else 0
          let c := if line.valid then c.updateSetOnReplacement p.2 line.gpuline else c
          let c := c.initializeCacheLine now ⟨p.2, way⟩ p.1 addr applId gpuline
          some (⟨p.2, way⟩, updatedLine, { c with insertCount := c.insertCount + 1 })

/-- `cache_c::invalidate_cache_line`; the source's result tells whether the line was dirty
and no caller reads it.
SRCLINE: cache.cc:419-439 -/
def invalidateCacheLine [Inhabited δ] (c : Cache δ) (addr : Addr) : Cache δ :=
  match c.lookup addr with
  | none => c
  | some l => c.modifyEntry l CacheEntry.nullCacheLineFields

end Cache

end MacSim.Model
