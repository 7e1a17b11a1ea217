import MacSim.Model.Word

/-!
# Page mappers

The two page mappers of the trace reader.  A mapper gives physical tags in the order in which
virtual pages, or virtual regions, are first touched; the region mapper keeps a page table
besides.  Page and region sizes are powers of two, for which `(int)log2` is exact.
-/

set_option autoImplicit false

namespace MacSim.Model

/-- `FCFSPageMapper`. -/
structure FcfsPageMapper where
  pageSize : ℕ
  physicalTag : Addr
  pageTable : Addr → Option Addr

namespace FcfsPageMapper

/-- SRCLINE: page_mapping.cc:51-54 -/
def new (pageSize : ℕ) : FcfsPageMapper :=
  { pageSize := pageSize, physicalTag := 0, pageTable := fun _ => none }

/-- `FCFSPageMapper::translate`.
SRCLINE: page_mapping.cc:62-84 -/
def translate (m : FcfsPageMapper) (virtualAddress : Addr) : Addr × FcfsPageMapper :=
  let vpn := virtualAddress >>> log2Int m.pageSize
  let offset := virtualAddress &&& (BitVec.ofNat 64 m.pageSize - 1#64)
  match m.pageTable vpn with
  | none =>
      ((m.physicalTag <<< log2Int m.pageSize) ||| offset,
        { m with
          pageTable := Function.update m.pageTable vpn (some m.physicalTag)
          physicalTag := m.physicalTag + 1#64 })
  | some ppn => ((ppn <<< log2Int m.pageSize) ||| offset, m)

end FcfsPageMapper

/-- `RegionBasedFCFSPageMapper`. -/
structure RegionBasedFcfsPageMapper where
  pageSize : ℕ
  regionSize : ℕ
  physicalTag : Addr
  pageTable : Addr → Option Addr
  regionTable : Addr → Option Addr

namespace RegionBasedFcfsPageMapper

/-- The constructor, which asserts that a region has room for a page.
SRCLINE: page_mapping.cc:91-98 -/
def new (pageSize regionSize : ℕ) : Option RegionBasedFcfsPageMapper :=
  if pageSize ≤ regionSize then
    some { pageSize := pageSize, regionSize := regionSize, physicalTag := 0
           pageTable := fun _ => none, regionTable := fun _ => none }
  else none

/-- `RegionBasedFCFSPageMapper::translate`.
SRCLINE: page_mapping.cc:106-148 -/
def translate (m : RegionBasedFcfsPageMapper) (virtualAddress : Addr) :
    Addr × RegionBasedFcfsPageMapper :=
  let vpn := virtualAddress >>> log2Int m.pageSize
  let region := virtualAddress >>> log2Int m.regionSize
  let offset := virtualAddress &&& (BitVec.ofNat 64 m.regionSize - 1#64)
  match m.regionTable region with
  | none =>
      let physicalAddress := (m.physicalTag <<< log2Int m.regionSize) ||| offset
      (physicalAddress,
        { m with
          regionTable := Function.update m.regionTable region (some m.physicalTag)
          physicalTag := m.physicalTag + 1#64
          pageTable := Function.update m.pageTable vpn
            (some (physicalAddress >>> log2Int m.pageSize)) })
  | some tag =>
      let physicalAddress := (tag <<< log2Int m.regionSize) ||| offset
      match m.pageTable vpn with
      | none =>
          (physicalAddress,
            { m with
              pageTable := Function.update m.pageTable vpn
                (some (physicalAddress >>> log2Int m.pageSize)) })
      | some _ => (physicalAddress, m)

end RegionBasedFcfsPageMapper

/-- The virtual addresses of a list of calls with the physical addresses that they return, and
the mapper after the last one. -/
def translations {σ : Type} (translate : σ → Addr → Addr × σ) :
    σ → List Addr → List (Addr × Addr) × σ
  | m, [] => ([], m)
  | m, va :: vas =>
      ((va, (translate m va).1) :: (translations translate (translate m va).2 vas).1,
        (translations translate (translate m va).2 vas).2)

end MacSim.Model
