import MacSim.Computation.Recency
import MacSim.Model.LruTable

/-!
# Calls of the TLB and the page replacement unit

The public functions of `TLB` take addresses, of which the page numbers are cut with the
offset width that the constructor computes, except for `invalidate`.  A call returns what the
function does, and fails where it fails an assertion.  Requests are what callers mean by the
calls.
-/

set_option autoImplicit false

namespace MacSim.Model

open MacSim.Computation

/-! ## The TLB -/

/-- `calc_log2`, which halves its argument until it vanishes.
SRCLINE: tlb.h:111-115 -/
def calcLog2 (val : ℕ) : ℕ := log2Int val

/-- `TLB`, with `m_offset_bits`. -/
structure TlbUnit where
  tlb : Tlb
  offsetBits : ℕ

namespace TlbUnit

/-- SRCLINE: tlb.cc:47-66 -/
def new (numEntries pageSize : ℕ) : TlbUnit :=
  { tlb := LruTable.new numEntries (2 ^ 64 - 1), offsetBits := calcLog2 pageSize }

/-- SRCLINE: tlb.h:117-119 -/
def getPageNumber (u : TlbUnit) (addr : Addr) : Addr := addr >>> u.offsetBits

end TlbUnit

/-- The public functions of `TLB` with their arguments. -/
inductive TlbCall where
  | lookup (addr : Addr) (pid : ℤ)
  | update (addr : Addr) (pid : ℤ)
  | translate (addr : Addr) (pid : ℤ)
  | insert (addr : Addr) (frameNumber : ℕ) (pid : ℤ)
  | invalidate (pageNumber : Addr) (pid : ℤ)
  deriving DecidableEq, Repr

/-- SRCLINE: tlb.cc:74-153 -/
def TlbCall.exec (u : TlbUnit) : TlbCall → Option (LruOut PageKey ℕ × TlbUnit)
  | .lookup addr pid => some (.found (u.tlb.lookup ⟨u.getPageNumber addr, pid⟩), u)
  | .update addr pid =>
      (LruTable.update u.tlb ⟨u.getPageNumber addr, pid⟩).map fun t => (.done, { u with tlb := t })
  | .translate addr pid =>
      (u.tlb.translate ⟨u.getPageNumber addr, pid⟩).map fun r => (.value r.1, { u with tlb := r.2 })
  | .insert addr frame pid =>
      (LruTable.insert u.tlb ⟨u.getPageNumber addr, pid⟩ frame).map fun t =>
        (.done, { u with tlb := t })
  | .invalidate page pid => (u.tlb.invalidate ⟨page, pid⟩).map fun t => (.done, { u with tlb := t })

/-- The page of an address. -/
def pageOf (pageSize : ℕ) (addr : Addr) : Addr := BitVec.ofNat 64 (addr.toNat / pageSize)

/-- What a call asks of a store that has pages of processes for keys and frames for values. -/
def TlbCall.request (pageSize : ℕ) : TlbCall → LruOp PageKey ℕ
  | .lookup addr pid => .lookup ⟨pageOf pageSize addr, pid⟩
  | .update addr pid => .touch ⟨pageOf pageSize addr, pid⟩
  | .translate addr pid => .read ⟨pageOf pageSize addr, pid⟩
  | .insert addr frame pid => .insert ⟨pageOf pageSize addr, pid⟩ frame
  | .invalidate page pid => .drop ⟨page, pid⟩

/-! ## The replacement unit -/

/-- The public functions of `MMU::ReplacementUnit` with their arguments. -/
inductive UnitCall where
  | insert (pageNumber : Addr) (pid : ℤ)
  | update (pageNumber : Addr) (pid : ℤ)
  | getVictim
  deriving DecidableEq, Repr

/-- SRCLINE: mmu.cc:75-124 -/
def UnitCall.exec (t : ReplacementUnit) :
    UnitCall → Option (LruOut PageKey Unit × ReplacementUnit)
  | .insert page pid => (LruTable.insert t ⟨page, pid⟩ ()).map fun t => (.done, t)
  | .update page pid => (LruTable.update t ⟨page, pid⟩).map fun t => (.done, t)
  | .getVictim => t.getVictim.map fun r => (.victim r.1, r.2)

/-- What a call asks of a list of pages. -/
def UnitCall.request : UnitCall → LruOp PageKey Unit
  | .insert page pid => .insert ⟨page, pid⟩ ()
  | .update page pid => .touch ⟨page, pid⟩
  | .getVictim => .victim

end MacSim.Model
