import MacSim.Model.Word

/-!
# The TLB and the page replacement unit

`TLB` and `MMU::ReplacementUnit` are built alike: a hash table from a page of a process to one
of a fixed number of entries, a list of the entries in use from the most to the least recently
used one, and a stack of free entries.  `LruTable` is this structure with some value in every
entry; a TLB has frames there and the replacement unit nothing.  An entry is the number of an
`Entry` object, and the linked list is the list of these numbers.

Operations return `none` where the source fails an assertion or follows a pointer that does
not lead to an entry of the list.
-/

set_option autoImplicit false

namespace MacSim.Model

/-- A page number with a process id: `FaultInfo`, `WalkInfo` and both `EntryIndex` classes. -/
@[ext]
structure PageKey where
  page : Addr
  pid : ℤ
  deriving DecidableEq, Repr

/-- The pid of calls that do not pass one. -/
def defaultPid : ℤ := -1

/-- The index `EntryIndex(-1, -1)`. -/
def PageKey.unset : PageKey := ⟨BitVec.allOnes 64, -1⟩

/-- The contents of an `Entry`. -/
structure LruEntry (β : Type) where
  key : PageKey
  value : β
  deriving DecidableEq, Repr

structure LruTable (β : Type) where
  table : PageKey → Option ℕ
  entry : ℕ → LruEntry β
  /-- the entries from `m_head` to `m_tail` -/
  order : List ℕ
  /-- the last one is used first -/
  freeEntries : List ℕ

namespace LruTable

variable {β : Type}

/-- A table of `n` entries.
SRCLINE: tlb.cc:47-66, mmu.h:160-178 -/
def new (n : ℕ) (blank : β) : LruTable β :=
  { table := fun _ => none, entry := fun _ => ⟨PageKey.unset, blank⟩, order := []
    freeEntries := List.range n }

/-- `detach` followed by `attach`. -/
def touch (t : LruTable β) (node : ℕ) : Option (LruTable β) :=
  if node ∈ t.order then some { t with order := node :: t.order.erase node } else none

/-- `insert`: a free entry is taken, else the least recently used one is replaced.
SRCLINE: tlb.cc:102-134, mmu.cc:83-108 -/
def insert (t : LruTable β) (key : PageKey) (value : β) : Option (LruTable β) :=
  match t.table key with
  | some _ => none
  | none =>
      match t.freeEntries.getLast? with
      | some node =>
          some { table := Function.update t.table key (some node)
                 entry := Function.update t.entry node ⟨key, value⟩
                 order := node :: t.order
                 freeEntries := t.freeEntries.dropLast }
      | none =>
          t.order.getLast?.map fun node =>
            { table := Function.update (Function.update t.table (t.entry node).key none) key
                (some node)
              entry := Function.update t.entry node ⟨key, value⟩
              order := node :: t.order.dropLast
              freeEntries := t.freeEntries }

/-- `update`.
SRCLINE: tlb.cc:80-87, mmu.cc:75-81 -/
def update (t : LruTable β) (key : PageKey) : Option (LruTable β) := (t.table key).bind t.touch

/-- The value that the table has for a page. -/
def find (t : LruTable β) (key : PageKey) : Option β :=
  (t.table key).map fun node => (t.entry node).value

end LruTable

/-- `TLB`: the values are frame numbers. -/
abbrev Tlb := LruTable ℕ

namespace Tlb

/-- SRCLINE: tlb.cc:74-78 -/
def lookup (t : Tlb) (key : PageKey) : Bool := (t.table key).isSome

/-- `TLB::translate`.
SRCLINE: tlb.cc:89-100 -/
def translate (t : Tlb) (key : PageKey) : Option (ℕ × Tlb) := do
  let node ← t.table key
  let t' ← LruTable.touch t node
  return ((t.entry node).value, t')

/-- `TLB::invalidate`.
SRCLINE: tlb.cc:136-153 -/
def invalidate (t : Tlb) (key : PageKey) : Option Tlb :=
  match t.table key with
  | none => some t
  | some node =>
      if (t.entry node).key.page = key.page ∧ node ∈ t.order then
        some { table := Function.update t.table key none
               entry := Function.update t.entry node ⟨PageKey.unset, 2 ^ 64 - 1⟩
               order := t.order.erase node
               freeEntries := t.freeEntries ++ [node] }
      else none

end Tlb

/-- `MMU::ReplacementUnit`. -/
abbrev ReplacementUnit := LruTable Unit

/-- `ReplacementUnit::getVictim`.  The entry is reset before its index is erased.
SRCLINE: mmu.cc:110-124 -/
def ReplacementUnit.getVictim (t : ReplacementUnit) : Option (PageKey × ReplacementUnit) :=
  t.order.getLast?.map fun node =>
    ((t.entry node).key,
      { table := Function.update t.table PageKey.unset none
        entry := Function.update t.entry node ⟨PageKey.unset, ()⟩
        order := t.order.dropLast
        freeEntries := t.freeEntries ++ [node] })

end MacSim.Model
