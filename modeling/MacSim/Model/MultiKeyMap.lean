import MacSim.Computation.Histories
import Mathlib.Logic.Function.Basic
import Mathlib.Tactic

/-!
# The map of block ids

The simulator numbers the blocks of all processes.  The outer table holds a pointer for each
process to a table of its own, from its block numbers to the ids.  Whoever reads or clears a
table that has been deleted, or deletes one that was never made, leaves what the language
defines; so does the counter of the ids when it overflows.
-/

set_option autoImplicit false

namespace MacSim.Model

/-- `multi_key_map_c`, with the inner tables it points to.  A pointer without a table is one that
was deleted, or not allocated yet. -/
structure MultiKeyMap where
  table : ℤ → Option ℕ
  size : ℤ
  heap : ℕ → Option (ℤ → Option ℤ)
  allocated : ℕ

namespace MultiKeyMap

/-- SRCLINE: utils.cc:186-188 -/
def new : MultiKeyMap where
  table := fun _ => none
  size := 0
  heap := fun _ => none
  allocated := 0

/-- `multi_key_map_c::find`; `none` is a use of freed memory.
SRCLINE: utils.cc:195-207 -/
def find (m : MultiKeyMap) (key₁ key₂ : ℤ) : Option ℤ :=
  match m.table key₁ with
  | none => some (-1)
  | some p => (m.heap p).map fun subTable => (subTable key₂).getD (-1)

/-- The id is stored for the two keys.
SRCLINE: utils.cc:211-218 -/
def store (m : MultiKeyMap) (key₁ key₂ : ℤ) : Option MultiKeyMap :=
  match m.table key₁ with
  | none =>
      let newSubTable := Function.update (fun _ => none) key₂ (some m.size)
      some { m with
        table := Function.update m.table key₁ (some m.allocated)
        heap := Function.update m.heap m.allocated (some newSubTable)
        allocated := m.allocated + 1 }
  | some p =>
      (m.heap p).map fun subTable =>
        { m with
          heap := Function.update m.heap p (some (Function.update subTable key₂ (some m.size))) }

/-- `multi_key_map_c::insert`; `none` is also an overflow of the counter.
SRCLINE: utils.cc:210-221 -/
def insert (m : MultiKeyMap) (key₁ key₂ : ℤ) : Option (MultiKeyMap × ℤ) :=
  if m.size + 1 < 2 ^ 31 then
    (m.store key₁ key₂).map fun m' => ({ m' with size := m.size + 1 }, m.size)
  else none

/-- `multi_key_map_c::delete_table`; `none` is the end of the outer table taken for an entry, or a
use of freed memory.
SRCLINE: utils.cc:223-227 -/
def deleteTable (m : MultiKeyMap) (key₁ : ℤ) : Option MultiKeyMap :=
  match m.table key₁ with
  | none => none
  | some p => (m.heap p).map fun _ => { m with heap := Function.update m.heap p none }

/-! ## Runs -/

inductive Call where
  | insert (key₁ key₂ : ℤ)
  | find (key₁ key₂ : ℤ)
  | deleteTable (key₁ : ℤ)
  deriving DecidableEq

/-- A call with what it returned. -/
inductive Answer where
  | inserted (key₁ key₂ id : ℤ)
  | found (key₁ key₂ id : ℤ)
  | deleted (key₁ : ℤ)
  deriving DecidableEq

def serve (m : MultiKeyMap) : Call → Option (MultiKeyMap × Answer)
  | .insert key₁ key₂ => (m.insert key₁ key₂).map fun x => (x.1, .inserted key₁ key₂ x.2)
  | .find key₁ key₂ => (m.find key₁ key₂).map fun id => (m, .found key₁ key₂ id)
  | .deleteTable key₁ => (m.deleteTable key₁).map fun m' => (m', .deleted key₁)

/-- All calls of a run, from an empty map. -/
def serveAll (calls : List Call) : Option (MultiKeyMap × List Answer) :=
  Computation.serveCalls serve new calls

end MultiKeyMap

end MacSim.Model
