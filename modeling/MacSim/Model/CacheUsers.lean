import MacSim.Model.CacheRuns

/-!
# The users of a cache

What the stages of the simulator do with a `cache_c`.  The data caches, the instruction cache
and the branch target buffer look a line up before they insert it.  The constant and texture
caches insert a line for every request that is filled, a merged one as well.
-/

set_option autoImplicit false

namespace MacSim.Model

/-- A call into a cache by one of its users. -/
inductive CacheUse (δ : Type) where
  | access (addr : Addr) (updateRepl : Bool)
  | fill (addr : Addr) (applId : ℕ) (gpuline : Bool)
  | readonlyFill (addr : Addr) (applId : ℕ) (gpuline : Bool)
  | write (l : Slot) (f : δ → δ)
  | invalidateLine (addr : Addr)
  | invalidateCache

namespace Cache

variable {δ : Type}

/-- The insertion of a line that is not in the cache: `process_fill_queue`, `dcu_c::done`,
`icache_fill_line` and `bp_targ_c::update`.
SRCLINE: memory.cc:1110-1131, 1421-1430, frontend.cc:716-720, bp_targ.cc:112-119 -/
def fill (c : Cache δ) (k : CacheKnobs) (now : Counter) (addr : Addr) (applId : ℕ)
    (gpuline : Bool) : Option (Cache δ) :=
  let x := c.accessCache now addr false
  match x.1 with
  | some _ => some x.2
  | none => (x.2.insertCache k now addr applId gpuline).map (·.2.2)

/-- `readonly_cache_c::cache_fill_line`.
SRCLINE: readonly_cache.cc:148-191 -/
def readonlyFill (c : Cache δ) (k : CacheKnobs) (now : Counter) (addr : Addr) (applId : ℕ)
    (gpuline : Bool) : Option (Cache δ) :=
  (c.insertCache k now addr applId gpuline).map (·.2.2)

/-- One call at cycle `now`. -/
def use [Inhabited δ] (k : CacheKnobs) (now : Counter) (c : Cache δ) :
    CacheUse δ → Option (Cache δ)
  | .access addr updateRepl => some (c.accessCache now addr updateRepl).2
  | .fill addr applId gpuline => c.fill k now addr applId gpuline
  | .readonlyFill addr applId gpuline => c.readonlyFill k now addr applId gpuline
  | .write l f => some (c.modifyData l f)
  | .invalidateLine addr => some (c.invalidateCacheLine addr)
  | .invalidateCache => some c.invalidateCache

/-- A run of calls. -/
def runUses [Inhabited δ] (k : CacheKnobs) : List (Counter × CacheUse δ) → Cache δ →
    Option (Cache δ)
  | [], c => some c
  | x :: uses, c => (c.use k x.1 x.2).bind (runUses k uses)

end Cache

end MacSim.Model
