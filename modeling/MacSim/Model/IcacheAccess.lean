import MacSim.Model.Memory

/-!
# The instruction cache of the front end

`frontend_c::process_ifetch` looks up the line of the next fetch address before it delivers
uops of a thread.  On a miss `access_icache` asks the memory system for the line and puts its
address into `m_fetch_ready_addr`, which keeps the thread from being fetched until
`icache_fill_line` clears it.

The result of `access_icache` is a truth value, and so is the answer of the memory system,
which refuses a request when no MSHR entry is left.
-/

set_option autoImplicit false

namespace MacSim.Model

/-- `CACHE_MISS`.
SRCLINE: global_defs.h:184 -/
abbrev CACHE_MISS : Bool := true

/-- `CACHE_HIT`.
SRCLINE: global_defs.h:185 -/
abbrev CACHE_HIT : Bool := false

/-- The knobs of the fetch stage of a core. -/
structure IcacheKnobs where
  perfectIcache : Bool
  icacheLineSize : ℕ
  ptxSim : Bool
  width : ℕ
  deriving DecidableEq, Repr

namespace Mem

/-- Replace the instruction cache of a core. -/
def setIcache (s : Mem) (coreId : ℕ) (icache : Cache Unit) : Mem :=
  { s with
    frontend := Function.update s.frontend coreId { s.frontend coreId with icache := icache } }

/-- Write `m_fetch_ready_addr` of a thread. -/
def setFetchReadyAddr (s : Mem) (coreId tid : ℕ) (lineAddr : Addr) : Mem :=
  { s with
    frontend := Function.update s.frontend coreId
      { s.frontend coreId with
        fetchReadyAddr :=
          Function.update (s.frontend coreId).fetchReadyAddr tid (some lineAddr) } }

/-- The request of a front end for a line.
SRCLINE: frontend.cc:634-638 -/
def ifetchArgs (k : IcacheKnobs) (coreId tid : ℕ) (lineAddr : Addr) : ReqArgs :=
  { type := .ifetch
    addr := lineAddr
    size := k.icacheLineSize
    withData := false
    delay := 0
    uop := none
    doneFunc := some .icacheFillLine
    coreId := coreId
    threadId := tid
    ptx := k.ptxSim }

/-- `frontend_c::access_icache`.  A cache that is bypassed leaves the address of the line
unset, so that its use stops the run.
SRCLINE: frontend.cc:584-649 -/
def accessIcache (cfg : MemConfig) (k : IcacheKnobs) (s : Mem) (coreId tid : ℕ)
    (fetchAddr : Addr) : Option (Mem × Bool) :=
  let icache := (s.frontend coreId).icache
  if fetchAddr = 0 then some (s, CACHE_HIT)
  else if k.perfectIcache then some (s, CACHE_HIT)
  else if icache.param.cacheByPass then none
  else
    match icache.accessCache s.simCycle fetchAddr true with
    | (some _, icache') => some (s.setIcache coreId icache', CACHE_HIT)
    | (none, icache') =>
        let lineAddr := icache.param.baseCacheLine fetchAddr
        ((s.setIcache coreId icache').newMemReq cfg (ifetchArgs k coreId tid lineAddr)).map
          fun p =>
            -- "mshr full"
            if p.2 = false then (p.1, false)
            else (p.1.setFetchReadyAddr coreId tid lineAddr, CACHE_MISS)

/-- The address that `process_ifetch` fetches: every process has its own memory space.
SRCLINE: frontend.cc:410-417 -/
def fetchAddr (s : Mem) (coreId processId : ℕ) (nextFetchAddr : Addr) : Addr :=
  nextFetchAddr + (s.frontend coreId).icache.param.baseCacheLine
    (BitVec.ofNat 64 (4294967295 * processId * 10))

/-- The fetch loop of `process_ifetch`: the uops it delivers of those that the trace offers
the thread.  `space` is the room in the frontend queue.
SRCLINE: frontend.cc:405-577 -/
def deliver {α : Type} (cfg : MemConfig) (k : IcacheKnobs) (s : Mem) (coreId tid processId : ℕ)
    (nextFetchAddr : Addr) (space : ℕ) (uops : List α) : Option (Mem × List α) :=
  (s.accessIcache cfg k coreId tid (s.fetchAddr coreId processId nextFetchAddr)).map fun p =>
    if p.2 then (p.1, []) else (p.1, uops.take (min space (max 1 k.width)))

end Mem

end MacSim.Model
