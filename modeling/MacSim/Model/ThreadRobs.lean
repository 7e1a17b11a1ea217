import MacSim.Computation.Recency
import MacSim.Model.BackEnd

/-!
# Reorder buffers in their arrays

`rob_c` keeps the uops in a circular array of twice the usable size, with lists of the fences
among them, the state of the write buffer and the books of `Rob`; `smc_rob_c` hands such
buffers out to the threads of a GPU core.  The list `entries` of a buffer is a record that the
source does not keep: the uops pushed since the buffer was last initialised, without those
popped.

The constructor leaves `m_version`, `m_last_fence_version` and `m_reset_uop_num` as it finds
them; `uninit` has what it finds there.
-/

set_option autoImplicit false

namespace MacSim.Model

open MacSim.Computation

/-- The kinds of fences. -/
inductive FenceType where
  | acquire | release | full
  deriving DecidableEq, Repr

/-- The order in which `ensure_mem_ordering` goes over the kinds. -/
def fenceTypes : List FenceType := [.acquire, .release, .full]

/-- `rob_c`, with its `fence_c`: the index of every fence of a kind that is active. -/
structure RobBuffer extends Rob where
  maxCnt : ℕ
  usableCnt : ℕ
  freeCnt : ℤ
  slots : ℕ → Option UopPtr
  firstEntry : ℕ
  lastEntry : ℕ
  fences : FenceType → List ℕ
  wbEmpty : Bool

namespace RobBuffer

/-- `rob_c::rob_c`.
SRCLINE: rob.cc:51-74 -/
def new (size : ℕ) (uninit : Rob) : RobBuffer :=
  { entries := [], version := uninit.version, lastFenceVersion := uninit.lastFenceVersion
    resetUopNum := uninit.resetUopNum, orq := [], rootFences := []
    maxCnt := size * 2, usableCnt := size * 2 / 2, freeCnt := (size * 2 / 2 : ℕ)
    slots := fun _ => none, firstEntry := 0, lastEntry := 0
    fences := fun _ => [], wbEmpty := true }

/-- `rob_c::reinit`.
SRCLINE: rob.cc:203-212 -/
def reinit (r : RobBuffer) : RobBuffer :=
  { r with
    entries := []
    slots := fun _ => none
    firstEntry := 0
    lastEntry := 0
    usableCnt := r.maxCnt / 2
    freeCnt := (r.maxCnt / 2 : ℕ) }

/-- `rob_c::space`. -/
def space (r : RobBuffer) : ℤ := r.freeCnt

/-- `rob_c::entries`. -/
def count (r : RobBuffer) : ℤ := r.usableCnt - r.freeCnt

/-- `rob_c::back`. -/
def back (r : RobBuffer) : Option UopPtr := r.slots ((r.lastEntry + r.maxCnt - 1) % r.maxCnt)

/-- `rob_c::push`, with the version that it writes into the uop.
SRCLINE: rob.cc:82-121 -/
def push (r : RobBuffer) (fenceEnable : Bool) (heap : UopPtr → BackUop) (p : UopPtr) :
    ℕ × RobBuffer :=
  (r.versionOf (heap p),
    { r with
      toRob := { r.toRob.processVersion fenceEnable (heap p) with entries := r.entries ++ [p] }
      slots := Function.update r.slots r.lastEntry (some p)
      lastEntry := (r.lastEntry + 1) % r.maxCnt
      freeCnt := r.freeCnt - 1 })

/-- `rob_c::pop`.  `none` stands for a null pointer at the end.
SRCLINE: rob.cc:189-200 -/
def pop (r : RobBuffer) (heap : UopPtr → BackUop) : Option RobBuffer :=
  let leave (r : RobBuffer) : RobBuffer :=
    { r with
      entries := r.entries.tail
      firstEntry := (r.firstEntry + 1) % r.maxCnt
      freeCnt := r.freeCnt + 1 }
  if r.count = 1 ∧ r.orq = [] then
    r.back.map fun p =>
      leave { r with version := 0, lastFenceVersion := 0, resetUopNum := (heap p).uopNum }
  else some (leave r)

/-- `rob_c::get_relative_index`.
SRCLINE: rob.cc:234-239 -/
def getRelativeIndex (r : RobBuffer) (entry : ℕ) : ℤ :=
  if r.firstEntry ≤ entry then (entry : ℤ) - r.firstEntry
  else (entry : ℤ) + r.maxCnt - r.firstEntry

/-- `rob_c::is_later_entry`.
SRCLINE: rob.cc:241-249 -/
def isLaterEntry (r : RobBuffer) (fenceEntry entry : ℕ) : Bool :=
  !decide (r.getRelativeIndex entry < r.getRelativeIndex fenceEntry)

/-- `rob_c::ensure_mem_ordering`.
SRCLINE: rob.cc:252-271 -/
def ensureMemOrdering (r : RobBuffer) (acqRel : Bool) (entry : ℕ) : Bool :=
  if acqRel then false
  else fenceTypes.any fun ft => (r.fences ft).any fun f => r.isLaterEntry f entry

/-- The loop of `pending_mem_ops` from the index `search`: whether there is a memory operation
before `entry`.  `none` stands for a null pointer, or for a loop that does not end. -/
def pendingLoop (r : RobBuffer) (heap : UopPtr → BackUop) (entry : ℕ) : ℕ → ℕ → Option Bool
  | 0, _ => none
  | rounds + 1, search =>
      if search = entry then some false
      else (r.slots search).bind fun p =>
        if (heap p).memType ≠ .notMem then some true
        else pendingLoop r heap entry rounds ((search + 1) % r.maxCnt)

/-- `rob_c::pending_mem_ops`.
SRCLINE: rob.cc:216-232 -/
def pendingMemOps (r : RobBuffer) (useWb : Bool) (heap : UopPtr → BackUop) (entry : ℕ) :
    Option Bool :=
  (r.pendingLoop heap entry (r.maxCnt + 1) r.firstEntry).map fun found =>
    if found then true else if useWb then !r.wbEmpty else false

/-- `fence_list::ins_fence_entry` in the list of a kind; the set of the source has the elements
of the list.
SRCLINE: fence.h:26-30, fence.h:119-126 -/
def insFenceEntry (r : RobBuffer) (entry : ℕ) (ft : FenceType) : RobBuffer :=
  if entry ∈ r.fences ft then r
  else { r with fences := Function.update r.fences ft (r.fences ft ++ [entry]) }

/-- `fence_list::del_fence_entry`, which takes the front of a list.
SRCLINE: fence.h:35-39, fence.h:131-138 -/
def delFenceEntry (r : RobBuffer) (ft : FenceType) : Option RobBuffer :=
  match r.fences ft with
  | [] => none
  | _ :: rest => some { r with fences := Function.update r.fences ft rest }

/-- `rob_c::set_wb_empty`. -/
def setWbEmpty (r : RobBuffer) (state : Bool) : RobBuffer := { r with wbEmpty := state }

end RobBuffer

/-! ## What a thread does with its buffer -/

/-- Calls of a thread on its reorder buffer. -/
inductive RobCall where
  | push (p : UopPtr)
  | pop
  | ensureMemOrdering (entry : ℕ)
  | pendingMemOps (entry : ℕ)
  | versionOrderingCheck (p : UopPtr)
  deriving DecidableEq, Repr

/-- What a call returns; a push writes a version into the uop. -/
inductive RobOut where
  | version (v : ℕ)
  | done
  | ordered (b : Bool)
  deriving DecidableEq, Repr

/-- One call, on the buffer and the uops.  Callers push where there is space and pop where there
is an entry. -/
def RobCall.exec (k : BackKnobs) (s : RobBuffer × (UopPtr → BackUop)) :
    RobCall → Option (RobOut × RobBuffer × (UopPtr → BackUop))
  | .push p =>
      if 0 < s.1.space then
        some (.version (s.1.push k.fenceEnable s.2 p).1, (s.1.push k.fenceEnable s.2 p).2,
          Function.update s.2 p
            { s.2 p with memVersion := (s.1.push k.fenceEnable s.2 p).1 })
      else none
  | .pop => if 0 < s.1.count then (s.1.pop s.2).map fun r => (.done, r, s.2) else none
  | .ensureMemOrdering entry => some (.ordered (s.1.ensureMemOrdering k.acqRel entry), s)
  | .pendingMemOps entry => (s.1.pendingMemOps k.useWb s.2 entry).map fun b => (.ordered b, s)
  | .versionOrderingCheck p => some (.ordered (s.1.versionOrderingCheck (s.2 p)), s)

/-! ## The buffers of a core -/

/-- `smc_rob_c`, with the uops. -/
structure ThreadRobs where
  numThreads : ℕ
  threadRobs : ℕ → RobBuffer
  freeList : List ℕ
  threadToRobMap : ℤ → Option ℕ
  heap : UopPtr → BackUop

/-- What happens to the buffers of a core. -/
inductive RobsAct where
  | reserveRob (t : ℤ)
  | freeRob (t : ℤ)
  | push (t : ℤ) (p : UopPtr)
  | pop (t : ℤ)
  | insFenceEntry (t : ℤ) (entry : ℕ) (ft : FenceType)
  | delFenceEntry (t : ℤ) (ft : FenceType)
  | setWbEmpty (t : ℤ) (state : Bool)
  | updateOrq (t : ℤ) (lowestAge : ℕ)
  | updateRoot (t : ℤ) (p : UopPtr)
  | writeUop (p : UopPtr) (uop : BackUop)

namespace ThreadRobs

/-- `smc_rob_c::smc_rob_c`.
SRCLINE: rob_smc.cc:61-91 -/
def new (k : BackKnobs) (uninit : Rob) (heap : UopPtr → BackUop) : ThreadRobs :=
  { numThreads := k.numThreads, threadRobs := fun _ => RobBuffer.new k.robSize uninit
    freeList := List.range k.numThreads, threadToRobMap := fun _ => none, heap := heap }

/-- `smc_rob_c::reserve_rob`.
SRCLINE: rob_smc.cc:147-159 -/
def reserveRob (s : ThreadRobs) (t : ℤ) : Option ThreadRobs :=
  if t < 0 ∨ (s.threadToRobMap t).isSome then none
  else match s.freeList with
    | [] => none
    | index :: rest =>
        some { s with
          freeList := rest
          threadToRobMap := Function.update s.threadToRobMap t (some index)
          threadRobs := Function.update s.threadRobs index (s.threadRobs index).reinit }

/-- `smc_rob_c::free_rob`.
SRCLINE: rob_smc.cc:162-169 -/
def freeRob (s : ThreadRobs) (t : ℤ) : Option ThreadRobs :=
  if t < 0 then none
  else (s.threadToRobMap t).map fun index =>
    { s with
      freeList := s.freeList ++ [index]
      threadToRobMap := Function.update s.threadToRobMap t none }

/-- A call on the buffer of `get_thread_rob`.
SRCLINE: rob_smc.cc:104-131 -/
def onThread (s : ThreadRobs) (t : ℤ) (f : RobBuffer → Option RobBuffer) : Option ThreadRobs :=
  if t < 0 then none
  else (s.threadToRobMap t).bind fun index =>
    (f (s.threadRobs index)).map fun r =>
      { s with threadRobs := Function.update s.threadRobs index r }

/-- A uop enters the buffer of a thread.  Callers push where there is space. -/
def pushUop (k : BackKnobs) (s : ThreadRobs) (t : ℤ) (p : UopPtr) : Option ThreadRobs :=
  if t < 0 then none
  else (s.threadToRobMap t).bind fun index =>
    let x := (s.threadRobs index).push k.fenceEnable s.heap p
    if 0 < (s.threadRobs index).space then
      some { s with
        threadRobs := Function.update s.threadRobs index x.2
        heap := Function.update s.heap p { s.heap p with memVersion := x.1 } }
    else none

/-- One action.  Callers pop where there is an entry. -/
def step (k : BackKnobs) (s : ThreadRobs) : RobsAct → Option ThreadRobs
  | .reserveRob t => s.reserveRob t
  | .freeRob t => s.freeRob t
  | .push t p => s.pushUop k t p
  | .pop t => s.onThread t fun r => if 0 < r.count then r.pop s.heap else none
  | .insFenceEntry t entry ft => s.onThread t fun r => some (r.insFenceEntry entry ft)
  | .delFenceEntry t ft => s.onThread t fun r => r.delFenceEntry ft
  | .setWbEmpty t state => s.onThread t fun r => some (r.setWbEmpty state)
  | .updateOrq t age =>
      s.onThread t fun r => (r.updateOrq age).map fun b => { r with toRob := b }
  | .updateRoot t p =>
      s.onThread t fun r => (r.updateRoot (s.heap p)).map fun b => { r with toRob := b }
  | .writeUop p uop => some { s with heap := Function.update s.heap p uop }

/-- A run. -/
def run (k : BackKnobs) (s : ThreadRobs) (acts : List RobsAct) : Option ThreadRobs :=
  acts.foldlM (fun s a => s.step k a) s

end ThreadRobs

end MacSim.Model
