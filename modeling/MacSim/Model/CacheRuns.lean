import MacSim.Model.Cache

/-!
# Runs of a cache

The operations of `cache_c` that change a cache, at the cycles at which they are called.  An
operation uses a line when it sets its access time: an access that hits and updates the
replacement state, and an insertion.  The log of a run has these uses in order.
-/

set_option autoImplicit false

namespace MacSim.Model

/-- An operation on a cache. -/
inductive CacheOp where
  | access (addr : Addr) (updateRepl : Bool)
  | insert (addr : Addr) (applId : ℕ) (gpuline : Bool)
  | invalidateLine (addr : Addr)
  | invalidateCache
  deriving DecidableEq, Repr

namespace Cache

variable {δ : Type}

/-- `cache_c::invalidate_cache`.
SRCLINE: cache.cc:446-456 -/
def invalidateCache [Inhabited δ] (c : Cache δ) : Cache δ :=
  { c with set := fun i =>
      { c.set i with
        entry := (c.set i).entry.map fun line =>
          { line with valid := false, tag := 0, data := default } } }

/-- One operation at cycle `now`: the line that is used and the new cache.  `none` is a failed
assertion. -/
def step [Inhabited δ] (k : CacheKnobs) (now : Counter) (c : Cache δ) :
    CacheOp → Option (Option Slot × Cache δ)
  | .access addr updateRepl =>
      let x := c.accessCache now addr updateRepl
      some (if updateRepl then x.1 else none, x.2)
  | .insert addr applId gpuline =>
      (c.insertCache k now addr applId gpuline).map fun x => (some x.1, x.2.2)
  | .invalidateLine addr => some (none, c.invalidateCacheLine addr)
  | .invalidateCache => some (none, c.invalidateCache)

/-- A run: the uses with their cycles and the new cache. -/
def run [Inhabited δ] (k : CacheKnobs) :
    List (Counter × CacheOp) → Cache δ → Option (List (Slot × Counter) × Cache δ)
  | [], c => some ([], c)
  | (now, op) :: ops, c =>
      (c.step k now op).bind fun x =>
        (run k ops x.2).map fun y => (x.1.toList.map (·, now) ++ y.1, y.2)

end Cache

end MacSim.Model
