import MacSim.Model.Mmu

/-!
# The page walks of a memory instruction

A memory uop with several requests is a parent with a child for each request.  The execution
stage hands the pending children to the MMU one after the other, and again in a later cycle
those that a cache refused.  The parent counts the walks of its children in a field that it
writes at the start of every attempt; until the first one the field has whatever the object had
before.

The model of the MMU is left as it is; its surroundings are a core that executes parents and
single uops and that takes objects from a pool.  `issued` is not in the source: it says that
`exec_c::exec` has reached the parent since the object was taken from the pool.
-/

set_option autoImplicit false

namespace MacSim.Model

/-- The MMU and the parents that were executed. -/
structure IssuingCore where
  mmu : Mmu
  issued : ℕ → Bool

namespace IssuingCore

/-- `MMU::initialize`, before any uop is executed. -/
def initial (k : MmuKnobs) (cycle : ℕ) (started : Bool) (uops : ℕ → MmuUop) : IssuingCore where
  mmu := initializeMmu k cycle started uops
  issued := fun _ => false

/-- `exec_c::exec` for a parent uop.  `pending` are the children whose bit is set in
`m_pending_child_uops`; what the caches answer to a translated address does not concern the
MMU.
SRCLINE: exec.cc:380-507, memory.cc:407-416 -/
def exec (k : MmuKnobs) (s : IssuingCore) (p : ℕ) (pending : List ℕ) : Except MmuFault IssuingCore := do
  let mmu := s.mmu.modifyUop p fun uop => { uop with numPageTableWalks := 0 }
  let mmu ← pending.foldlM (fun t c => (t.translate k c).map (·.2)) mmu
  return { mmu := mmu, issued := Function.update s.issued p true }

end IssuingCore

/-- What can happen to an MMU and its core. -/
inductive IssuingAction where
  /-- a parent is executed, for the first time or again -/
  | exec (p : ℕ) (pending : List ℕ)
  /-- a memory uop without children is executed -/
  | access (u : ℕ)
  /-- a uop object is taken from the pool -/
  | fetch (u : ℕ) (uop : MmuUop)
  /-- one cycle of the MMU -/
  | runACycle (pllLock : Bool) (answers : ℕ → ℤ)
  /-- the batches of faults -/
  | handlePageFaults (order : List PageKey → List PageKey)

namespace IssuingCore

/-- An action of the MMU itself. -/
def act (k : MmuKnobs) (s : IssuingCore) (a : MmuAction) : Except MmuFault IssuingCore := do
  let mmu ← s.mmu.step k a
  return { s with mmu := mmu }

/-- One action. -/
def step (k : MmuKnobs) (s : IssuingCore) : IssuingAction → Except MmuFault IssuingCore
  | .exec p pending => s.exec k p pending
  | .access u => s.act k (.translate u)
  | .fetch u uop =>
      ({ s with issued := Function.update s.issued u false }).act k (.renew u uop)
  | .runACycle pllLock answers => s.act k (.runACycle pllLock answers)
  | .handlePageFaults order => s.act k (.handlePageFaults order)

/-- A child is a copy of its parent.
SRCLINE: trace_read_gpu.cc:1247-1253 -/
def ChildOf (s : Mmu) (p c : ℕ) : Prop :=
  (s.uops c).parent = some p ∧ (s.uops c).coreId = (s.uops p).coreId ∧
    (s.uops c).threadId = (s.uops p).threadId

/-- The core can take the action: the pending children are different and none of them is with
the MMU; an object is taken from the pool only after its uop has retired, and a parent retires
only when all its children are done.
SRCLINE: exec.cc:465-470, exec.cc:513-522, retire.cc:485-499 -/
def Offered (s : IssuingCore) : IssuingAction → Prop
  | .exec p pending => pending.Nodup ∧
      ∀ c ∈ pending, s.mmu.waiting c = false ∧ ChildOf s.mmu p c
  | .access u => s.mmu.waiting u = false ∧ (s.mmu.uops u).parent = none
  | .fetch u _ => s.mmu.waiting u = false ∧
      ∀ v, s.mmu.waiting v = true → (s.mmu.uops v).parent ≠ some u
  | .runACycle _ _ => True
  | .handlePageFaults order => ReadsAll order

/-- The states of an MMU and its core in every run whose steps meet `P`. -/
inductive RunOf (k : MmuKnobs) (P : IssuingCore → IssuingAction → Prop) : IssuingCore → Prop
  | start (cycle : ℕ) (started : Bool) (uops : ℕ → MmuUop) :
      RunOf k P (initial k cycle started uops)
  | step {s s' : IssuingCore} (a : IssuingAction) (h : RunOf k P s) (ha : s.Offered a) (hp : P s a)
      (hs : s.step k a = .ok s') : RunOf k P s'

end IssuingCore

end MacSim.Model
