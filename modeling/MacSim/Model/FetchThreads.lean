import Mathlib.Data.List.Basic
import Mathlib.Data.Finset.Basic
import Mathlib.Tactic

/-!
# The threads that a core fetches from

A core numbers its threads in the order in which they are scheduled on it.  They end in any
order; `m_last_terminated_tid` is kept below all that have not ended, and the ids that have
ended above it are kept in a table.  The round-robin policy walks from `m_fetch_arbiter` on
through the threads above that watermark.

What the cache, the branches, the loads and the barriers of a thread say is an argument of each
walk.
-/

set_option autoImplicit false

namespace MacSim.Model

/-- What `fetch_rr` asks about a thread, and the knobs that say what it asks.  `fetchBlocked`
is false for a thread without fetch data. -/
structure FetchChecks where
  noFetchOnIcacheMiss : Bool
  ptxSim : Bool
  mtNoFetchBr : Bool
  fetchOnlyLoadReady : Bool
  fetchReady : ℕ → Bool
  fetchBlocked : ℕ → Bool
  brReady : ℕ → Bool
  loadReady : ℕ → Bool

/-- What `core_c` and `frontend_c` know of their threads. -/
structure FetchCore where
  uniqueScheduledThreadNum : ℕ
  lastTerminatedTid : ℕ
  terminatedTid : List ℕ
  fetchingThreadNum : ℕ
  fetchEnded : ℕ → Bool
  threadReachEnd : ℕ → Bool
  fetchArbiter : ℕ
  lastFetchTidFailed : Bool

namespace FetchCore

/-- A new core.
SRCLINE: core.cc:115-135, frontend.cc:155-157 -/
def new : FetchCore where
  uniqueScheduledThreadNum := 0
  lastTerminatedTid := 0
  terminatedTid := []
  fetchingThreadNum := 0
  fetchEnded := fun _ => false
  threadReachEnd := fun _ => false
  fetchArbiter := 0
  lastFetchTidFailed := false

/-! ## Threads come and go -/

/-- `core_c::create_trace_info` for the next thread id, with `allocate_thread_data`.
SRCLINE: core.cc:618-626, 761-771, process_manager.cc:1177-1187 -/
def createTraceInfo (s : FetchCore) : FetchCore :=
  { s with
    fetchEnded := Function.update s.fetchEnded s.uniqueScheduledThreadNum false
    threadReachEnd := Function.update s.threadReachEnd s.uniqueScheduledThreadNum false
    uniqueScheduledThreadNum := s.uniqueScheduledThreadNum + 1
    fetchingThreadNum := s.fetchingThreadNum + 1 }

/-- The decoder has sent the last uop of a thread.
SRCLINE: trace_read_cpu.cc:1101-1102, trace_read_gpu.cc:891-892 -/
def endFetch (s : FetchCore) (tid : ℕ) : FetchCore :=
  { s with
    fetchingThreadNum := s.fetchingThreadNum - 1
    fetchEnded := Function.update s.fetchEnded tid true }

/-- The loop over the ids that have ended.  Each round takes an id out of the table, so that
there are no more rounds than entries.
SRCLINE: core.cc:677-681 -/
def advanceTid : ℕ → ℕ → List ℕ → ℕ × List ℕ
  | 0, t, ids => (t, ids)
  | rounds + 1, t, ids =>
      if t ∈ ids then advanceTid rounds (t + 1) (ids.filter (· ≠ t)) else (t, ids)

/-- `core_c::deallocate_thread_data` up to the check of the forward progress.
SRCLINE: core.cc:655-692 -/
def deallocateThreadData (s : FetchCore) (tid : ℕ) : FetchCore :=
  let ids := tid :: s.terminatedTid.filter (· ≠ tid)
  let x := advanceTid ids.length s.lastTerminatedTid ids
  { s with lastTerminatedTid := x.1, terminatedTid := x.2 }

/-- The check of the forward progress passes.
SRCLINE: core.cc:685-692 -/
def forwardProgress (s : FetchCore) : Bool :=
  decide (s.uniqueScheduledThreadNum < s.lastTerminatedTid + 1000)

/-- The last uop of a thread retires: the thread is marked, and its data is deallocated.
SRCLINE: retire.cc:295-305 -/
def reachEnd (s : FetchCore) (tid : ℕ) : FetchCore :=
  { s with threadReachEnd := Function.update s.threadReachEnd tid true }.deallocateThreadData tid

/-- The rest of the retirement: the fetch of the thread ends, too.  `none` is the failed
assertion of the forward progress.
SRCLINE: retire.cc:295-310 -/
def terminate (s : FetchCore) (tid : ℕ) : Option FetchCore :=
  let s := s.reachEnd tid
  if s.forwardProgress then some (if s.fetchEnded tid then s else s.endFetch tid) else none

/-- The ids that a loop over all threads visits.
SRCLINE: core.cc:445, frontend.cc:317-318, 733 -/
def visited (s : FetchCore) : List ℕ :=
  List.range' s.lastTerminatedTid (s.uniqueScheduledThreadNum - s.lastTerminatedTid)

/-! ## Round robin -/

/-- The thread passes the checks of `fetch_rr`.
SRCLINE: frontend.cc:895-937 -/
def passes (c : FetchChecks) (s : FetchCore) (tid : ℕ) : Bool :=
  !(s.fetchEnded tid || s.threadReachEnd tid || (c.noFetchOnIcacheMiss && !c.fetchReady tid)) &&
    !c.fetchBlocked tid &&
    (!c.ptxSim || ((!c.mtNoFetchBr || c.brReady tid) &&
      (!c.fetchOnlyLoadReady || c.loadReady tid)))

/-- The next thread id, and the arbiter behind it.  After a failed fetch the arbiter stays.
SRCLINE: frontend.cc:876-892 -/
def nextCandidate (s : FetchCore) : ℕ × FetchCore :=
  let fetchId :=
    if s.uniqueScheduledThreadNum ≤ s.fetchArbiter then
      s.fetchArbiter % s.uniqueScheduledThreadNum
    else s.fetchArbiter
  let arbiter :=
    if s.lastFetchTidFailed then s.fetchArbiter
    else if s.fetchArbiter + 1 = s.uniqueScheduledThreadNum then 0
    else s.fetchArbiter + 1
  (fetchId,
    { s with
      fetchArbiter := if arbiter < s.lastTerminatedTid then s.lastTerminatedTid else arbiter
      lastFetchTidFailed := false })

/-- The tries that are left; `none` is the source's `-1`.
SRCLINE: frontend.cc:875-951 -/
def tryFetch (c : FetchChecks) : ℕ → FetchCore → Option ℕ × FetchCore
  | 0, s => (none, s)
  | tries + 1, s =>
      let x := s.nextCandidate
      if x.2.passes c x.1 then (some x.1, x.2) else tryFetch c tries x.2

/-- `frontend_c::fetch_rr`.
SRCLINE: frontend.cc:865-957 -/
def fetchRr (c : FetchChecks) (s : FetchCore) : Option ℕ × FetchCore :=
  if s.fetchingThreadNum = 0 then (none, s)
  else tryFetch c (s.uniqueScheduledThreadNum - s.lastTerminatedTid) s

/-! ## Runs -/

/-- What happens to the threads of a core. -/
inductive FetchAct where
  | create
  | endFetch (tid : ℕ)
  | terminate (tid : ℕ)
  | fetch (c : FetchChecks)
  /-- the frontend is stalled or its queue has no room: the fetch failed -/
  | stall

/-- What one action does; `none` when it is not possible or when an assertion fails. -/
def step (s : FetchCore) : FetchAct → Option FetchCore
  | .create => some s.createTraceInfo
  | .endFetch tid =>
      if tid < s.uniqueScheduledThreadNum ∧ s.fetchEnded tid = false then some (s.endFetch tid)
      else none
  | .terminate tid =>
      if tid < s.uniqueScheduledThreadNum ∧ s.threadReachEnd tid = false then s.terminate tid
      else none
  | .fetch c => some (s.fetchRr c).2
  | .stall => some { s with lastFetchTidFailed := true }

/-- The states of all runs. -/
inductive Reachable : FetchCore → Prop
  | new : Reachable new
  | step {s s' : FetchCore} (a : FetchAct) (h : Reachable s) (hstep : s.step a = some s') :
      Reachable s'

end FetchCore

end MacSim.Model
