import Mathlib.Logic.Function.Basic
import Mathlib.Data.Nat.Notation

/-!
# The out-of-order scheduler

`schedule_ooo_c` keeps the uops that wait for execution in a circular list of reorder buffer
entries.  `advance` appends the entries of the allocation queues; `run_a_cycle` tries every
entry from the head of the list on and clears the slots of those that execute, wherever they
stand.  The head moves only while the scan stands on it.

The reorder buffer is the array of `rob_c`, a uop is kept in its slot.  Which attempts succeed,
how many entries of a queue have passed its latency, and when the memory system writes a done
cycle are arguments of the actions.  Three history variables record what happened: the uops
that `advance` moved into the list, those that executed, and whether a slot that was occupied
was ever written.
-/

set_option autoImplicit false

namespace MacSim.Model

/-- `ALLOCQ_Type`.
SRCLINE: uop.h:50-56 -/
inductive AllocQ where
  | gen | mem | fp | simd
  deriving DecidableEq, Repr

/-- `MAX_SCHED_SIZE`.
SRCLINE: schedule.h:161 -/
def maxSchedSize : ℕ := 8192

/-- What the scheduler and the reorder buffer read of a uop.  `num` tells the uops apart. -/
structure SchedUop where
  num : ℕ
  allocqNum : AllocQ
  bogus : Bool
  execCycle : ℕ
  doneCycle : ℕ
  deriving DecidableEq, Repr

/-- The knobs of the scheduler and of the reorder buffer. -/
structure SchedKnobs where
  robSize : ℕ
  schedSize : AllocQ → ℕ
  schedRate : AllocQ → ℕ
  schedToWidth : Bool
  width : ℕ

/-- A core from its allocation queues to its reorder buffer.  A slot `none` of the schedule
list is `-1` in the source. -/
structure OooSched where
  rob : ℕ → SchedUop
  robFirst : ℕ
  robLast : ℕ
  robFree : ℕ
  allocQ : AllocQ → List ℕ
  scheduleList : ℕ → Option ℕ
  first : ℕ
  last : ℕ
  numInSched : ℕ
  numPerSched : AllocQ → ℕ
  cycle : ℕ
  nextNum : ℕ
  moved : List ℕ
  executed : List ℕ
  overwritten : Bool

namespace OooSched

/-- `rob_c::m_max_cnt`. -/
def robMax (k : SchedKnobs) : ℕ := 2 * k.robSize

/-- The constructors of `rob_c` and `schedule_c`.
SRCLINE: rob.cc:51-73, schedule.cc:58-80 -/
def new (k : SchedKnobs) : OooSched where
  rob := fun _ => ⟨0, .gen, false, 0, 0⟩
  robFirst := 0
  robLast := 0
  robFree := k.robSize
  allocQ := fun _ => []
  scheduleList := fun _ => none
  first := 0
  last := 0
  numInSched := 0
  numPerSched := fun _ => 0
  cycle := 0
  nextNum := 0
  moved := []
  executed := []
  overwritten := false

/-! ## The reorder buffer -/

/-- One uop of `allocate_c::run_a_cycle`: the entry goes to an allocation queue, the uop to the
end of the reorder buffer.
SRCLINE: allocate.cc:154-214, rob.cc:82-86 -/
def allocate (k : SchedKnobs) (s : OooSched) (q : AllocQ) (bogus : Bool) : Option OooSched :=
  if s.robFree < 1 then none
  else
    some { s with
      allocQ := Function.update s.allocQ q (s.allocQ q ++ [s.robLast])
      rob := Function.update s.rob s.robLast ⟨s.nextNum, q, bogus, 0, 0⟩
      robLast := (s.robLast + 1) % robMax k
      robFree := s.robFree - 1
      nextNum := s.nextNum + 1 }

/-- `rob_c::pop` of a uop that the retire stage accepts; every such uop has executed.
SRCLINE: retire.cc:165-254, rob.cc:196-198 -/
def retire (k : SchedKnobs) (s : OooSched) : Option OooSched :=
  if s.robFree = k.robSize ∨ (s.rob s.robFirst).execCycle = 0 then none
  else
    some { s with
      robFirst := (s.robFirst + 1) % robMax k
      robFree := s.robFree + 1 }

/-! ## The scan -/

/-- The end of `uop_schedule` for a uop that `exec_c::exec` accepted with a latency, if any.
`none` is a failed assertion.
SRCLINE: schedule.cc:282-309, exec.cc:655-677 -/
def uopExecuted (s : OooSched) (entry : ℕ) (latency : Option ℕ) : Option OooSched :=
  let uop := s.rob entry
  let q := uop.allocqNum
  if s.numInSched = 0 ∨ s.numPerSched q = 0 then none
  else
    some { s with
      rob := Function.update s.rob entry
        { uop with
          execCycle := s.cycle
          doneCycle := match latency with
            | none => uop.doneCycle
            | some l => s.cycle + l }
      numInSched := s.numInSched - 1
      numPerSched := Function.update s.numPerSched q (s.numPerSched q - 1)
      executed := s.executed ++ [uop.num] }

/-- The head of the list passes the slot that the scan stands on. -/
def passHead (s : OooSched) (i : ℕ) : OooSched :=
  if i = s.first then { s with first := (s.first + 1) % maxSchedSize } else s

/-- The loop of `schedule_ooo_c::run_a_cycle` from slot `i` on.  `exec` answers for each slot
whether its uop executes, and with which latency.  The first argument bounds the number of
slots.
SRCLINE: schedule_ooo.cc:84-110 -/
def scan (k : SchedKnobs) (exec : ℕ → Option (Option ℕ)) :
    ℕ → ℕ → ℕ → OooSched → Option OooSched
  | 0, _, _, s => some s
  | fuel + 1, i, count, s =>
      if i = s.last then some s
      else
        match s.scheduleList i with
        | some entry =>
            match exec i with
            | some latency => do
                let s ← s.uopExecuted entry latency
                let s := s.passHead i
                let s := { s with scheduleList := Function.update s.scheduleList i none }
                if k.schedToWidth && decide (k.width ≤ count + 1) then some s
                else scan k exec fuel ((i + 1) % maxSchedSize) (count + 1) s
            | none => scan k exec fuel ((i + 1) % maxSchedSize) count s
        | none => scan k exec fuel ((i + 1) % maxSchedSize) count (s.passHead i)

/-! ## Insertion -/

/-- The loop of `schedule_c::advance` on one queue.  The first argument counts the entries that
are ready, `count` what was inserted of each type.
SRCLINE: schedule.cc:332-406 -/
def advanceLoop (k : SchedKnobs) (q : AllocQ) : ℕ → (AllocQ → ℕ) → OooSched → OooSched
  | 0, _, s => s
  | n + 1, count, s =>
      match s.allocQ q with
      | [] => s
      | entry :: rest =>
          -- this prevents scheduler overwritten
          if (s.last + 1) % maxSchedSize = s.first then s
          else
            let uop := s.rob entry
            let t := uop.allocqNum
            if k.schedRate t ≤ count t ∨ k.schedSize t ≤ s.numPerSched t then s
            else
              let s := { s with allocQ := Function.update s.allocQ q rest }
              if uop.bogus || uop.doneCycle != 0 then
                advanceLoop k q n count
                  { s with rob := Function.update s.rob entry { uop with doneCycle := s.cycle } }
              else
                advanceLoop k q n (Function.update count t (count t + 1))
                  { s with
                    numInSched := s.numInSched + 1
                    overwritten := s.overwritten || (s.scheduleList s.last).isSome
                    scheduleList := Function.update s.scheduleList s.last (some entry)
                    last := (s.last + 1) % maxSchedSize
                    numPerSched := Function.update s.numPerSched t (s.numPerSched t + 1)
                    moved := s.moved ++ [uop.num] }

/-- `schedule_c::advance`.
SRCLINE: schedule.cc:327-407 -/
def advance (k : SchedKnobs) (s : OooSched) (q : AllocQ) (ready : ℕ) : OooSched :=
  advanceLoop k q ready (fun _ => 0) s

/-- `schedule_ooo_c::run_a_cycle`.
SRCLINE: schedule_ooo.cc:73-123 -/
def runACycle (k : SchedKnobs) (s : OooSched) (exec : ℕ → Option (Option ℕ))
    (ready : AllocQ → ℕ) : Option OooSched := do
  let s ← if s.numInSched ≠ 0 then scan k exec maxSchedSize s.first 0 s else some s
  let s := s.advance k .gen (ready .gen)
  let s := s.advance k .mem (ready .mem)
  let s := s.advance k .fp (ready .fp)
  some (s.advance k .simd (ready .simd))

/-! ## Runs -/

/-- One action of a core on its scheduler. -/
inductive Act where
  /-- a uop is allocated -/
  | allocate (q : AllocQ) (bogus : Bool)
  /-- one cycle of the scheduler -/
  | runACycle (exec : ℕ → Option (Option ℕ)) (ready : AllocQ → ℕ)
  /-- entries of one queue move into the scheduler -/
  | advance (q : AllocQ) (ready : ℕ)
  /-- the memory system writes the done cycle of a uop -/
  | complete (entry cycle : ℕ)
  /-- the oldest uop retires -/
  | retire
  /-- the clock advances -/
  | tick

/-- One action; `none` is a failed assertion or an action that the core does not offer. -/
def step (k : SchedKnobs) (s : OooSched) : Act → Option OooSched
  | .allocate q bogus => s.allocate k q bogus
  | .runACycle exec ready => s.runACycle k exec ready
  | .advance q ready => some (s.advance k q ready)
  | .complete entry cycle =>
      some { s with rob := Function.update s.rob entry { s.rob entry with doneCycle := cycle } }
  | .retire => s.retire k
  | .tick => some { s with cycle := s.cycle + 1 }

/-- A run of actions. -/
def run (k : SchedKnobs) (s : OooSched) (acts : List Act) : Option OooSched :=
  acts.foldlM (step k) s

end OooSched

end MacSim.Model
