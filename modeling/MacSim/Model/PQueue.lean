import MacSim.Computation.Histories
import Mathlib.Tactic

/-!
# The queues between the stages of a core

A queue of latency `n` has `n + 1` lists in a ring.  New entries go to the list at
`m_last_index`, in the order of their priorities, and entries leave from the front of the list at
`m_current_index`, which moves on when this list is empty.
-/

set_option autoImplicit false

namespace MacSim.Model

structure PqueueEntry (T : Type) where
  priority : ℤ
  data : T

/-- `pqueue_c`.  The places of `entry` from `size` on are outside of the array. -/
structure PQueue (T : Type) where
  capacity : ℤ
  lastIndex : ℕ
  currentIndex : ℕ
  numEntry : ℤ
  size : ℕ
  entry : ℕ → List (PqueueEntry T)

namespace PQueue

variable {T : Type}

/-- SRCLINE: pqueue.h:80-93 -/
def new (size : ℤ) (latency : ℕ) : PQueue T where
  capacity := size
  lastIndex := latency
  currentIndex := 0
  numEntry := 0
  size := latency + 1
  entry := fun _ => []

/-- SRCLINE: pqueue.h:106-108 -/
def ready (q : PQueue T) : Bool := !(q.entry q.currentIndex).isEmpty

/-- The loop that looks for the place of a new entry.
SRCLINE: pqueue.h:122-135 -/
def insertEntry (newEntry : PqueueEntry T) : List (PqueueEntry T) → List (PqueueEntry T)
  | [] => [newEntry]
  | e :: rest =>
      if e.priority < newEntry.priority then newEntry :: e :: rest
      else e :: insertEntry newEntry rest

/-- `none` is the failed assertion, or a write outside of the array.
SRCLINE: pqueue.h:113-138 -/
def enqueue (q : PQueue T) (priority : ℤ) (data : T) : Option (PQueue T) :=
  if q.numEntry < q.capacity ∧ q.lastIndex < q.size then
    some { q with
      numEntry := q.numEntry + 1
      entry := Function.update q.entry q.lastIndex
        (insertEntry ⟨priority, data⟩ (q.entry q.lastIndex)) }
  else none

/-- The entry carries the priority that the pointer gets; `none` is the front of an empty list.
SRCLINE: pqueue.h:143-158 -/
def dequeue (q : PQueue T) : Option (PQueue T × PqueueEntry T) :=
  match q.entry q.currentIndex with
  | [] => none
  | e :: rest =>
      some ({ q with
        entry := Function.update q.entry q.currentIndex rest
        numEntry := q.numEntry - 1 }, e)

/-- SRCLINE: pqueue.h:163-172 -/
def advance (q : PQueue T) : PQueue T :=
  if q.numEntry = 0 then q
  else if !(q.entry q.currentIndex).isEmpty then q
  else { q with
    lastIndex := q.currentIndex
    currentIndex := (q.currentIndex + 1) % q.size }

/-- The entries in the order in which `peek` counts them.
SRCLINE: pqueue.h:182-191 -/
def counted (q : PQueue T) : List (PqueueEntry T) :=
  (List.range q.size).flatMap fun ii => q.entry ((q.currentIndex + ii) % q.size)

/-- `none` is the failed assertion.
SRCLINE: pqueue.h:177-194 -/
def peek [Zero T] (q : PQueue T) (entry : ℤ) : Option T :=
  if entry ≤ q.numEntry then
    some (if entry < 0 then 0 else ((q.counted[entry.toNat]?).map PqueueEntry.data).getD 0)
  else none

/-- SRCLINE: pqueue.h:199-201 -/
def space (q : PQueue T) : ℤ := q.capacity - q.numEntry

/-- SRCLINE: pqueue.h:206-221 -/
def flush (q : PQueue T) : PQueue T :=
  { q with
    entry := fun ii => if ii < q.size then [] else q.entry ii
    numEntry := 0
    currentIndex := 0
    lastIndex := q.size }

/-! ## Runs -/

inductive Call (T : Type) where
  | enqueue (priority : ℤ) (data : T)
  | dequeue
  | advance
  | ready
  | peek (entry : ℤ)
  | space
  | flush

/-- What a call returns. -/
inductive Answer (T : Type) where
  | done
  | dequeued (e : PqueueEntry T)
  | ready (b : Bool)
  | peeked (data : T)
  | space (n : ℤ)

def serve [Zero T] (q : PQueue T) : Call T → Option (PQueue T × Answer T)
  | .enqueue priority data => (q.enqueue priority data).map fun q' => (q', .done)
  | .dequeue => q.dequeue.map fun x => (x.1, .dequeued x.2)
  | .advance => some (q.advance, .done)
  | .ready => some (q, .ready q.ready)
  | .peek entry => (q.peek entry).map fun data => (q, .peeked data)
  | .space => some (q, .space q.space)
  | .flush => some (q.flush, .done)

end PQueue

end MacSim.Model
