import MacSim.Model.AddressMap

/-!
# Invalidating a page

When the memory manager evicts a page frame it calls `memory_c::invalidate`, which walks the
caches and drops the lines of the page from each.  Two organisations override it because
they lack some levels.  All three versions run the same inner loop,
`for (; addr < end_addr; addr += line_size)`, on a list of caches, and all three declare the
running address once, before the first cache.

A level that is disabled, and an L3 that a coupled organisation never initialises, has no
cache: its `m_cache` is null and a call of `dcu_c::invalidate` on it does not return.
-/

set_option autoImplicit false

namespace MacSim.Model

/-- One `dcu_c`: its level and its index in the array of that level. -/
structure DcuId where
  level : Level
  id : ℕ
  deriving DecidableEq, Repr

/-- What `invalidate` reads and writes of `memory_c` and its caches.  The line size belongs
to the `dcu_c` and is set whether or not the level is enabled.
SRCLINE: memory.h:150-310 -/
structure Hierarchy (δ : Type) where
  numCore : ℕ
  numL3 : ℕ
  numLlc : ℕ
  pageSize : ℕ
  lineSize : DcuId → ℕ
  cache : DcuId → Option (Cache δ)
  lineSize_pos : ∀ v, 0 < lineSize v
  lineSize_dvd : ∀ v, lineSize v ∣ pageSize
  pageSize_pos : 0 < pageSize
  pageSize_lt : pageSize < 2 ^ 63

namespace Cache

variable {δ : Type}

/-- Whether an access to the address hits. -/
def hits (c : Cache δ) (addr : Addr) : Bool := (c.accessCache 0 addr false).1.isSome

end Cache

namespace Hierarchy

variable {δ : Type}

/-- The caches one version of `invalidate` walks through, in its order.
SRCLINE: memory.cc:2231-2254, 2455-2472, 2545-2559 -/
def covered (h : Hierarchy δ) : Organisation → List DcuId
  | .l2DecoupledNetwork =>
      (List.range h.numCore).flatMap (fun i => [⟨.l1, i⟩, ⟨.l2, i⟩]) ++
        (List.range h.numL3).map (DcuId.mk .l3)
  | .igpuNetwork =>
      (List.range h.numL3).map (DcuId.mk .l3) ++ (List.range h.numLlc).map (DcuId.mk .llc)
  | _ =>
      (List.range h.numCore).flatMap (fun i => [⟨.l1, i⟩, ⟨.l2, i⟩]) ++
        (List.range h.numL3).map (DcuId.mk .l3) ++ (List.range h.numLlc).map (DcuId.mk .llc)

/-- The loop over the lines of one cache, from the running address on.  It gives the address
it stops at and the cache; `none` stands for a null `m_cache` or a loop still running when
the fuel is used up. -/
def sweep [Inhabited δ] (lineSize : ℕ) (endAddr : Addr) :
    ℕ → Addr → Option (Cache δ) → Option (Addr × Option (Cache δ))
  | 0, addr, c => if addr < endAddr then none else some (addr, c)
  | fuel + 1, addr, c =>
      if addr < endAddr then
        match c with
        | none => none
        | some c =>
            sweep lineSize endAddr fuel (addr + BitVec.ofNat 64 lineSize)
              (some (c.invalidateCacheLine addr))
      else some (addr, c)

/-- The body of the loops over cores and slices: one cache, with the running address that
the caches before it left. -/
def sweepDcu [Inhabited δ] (h : Hierarchy δ) (endAddr : Addr)
    (s : Addr × (DcuId → Option (Cache δ))) (v : DcuId) :
    Option (Addr × (DcuId → Option (Cache δ))) :=
  (sweep (h.lineSize v) endAddr (endAddr - s.1).toNat s.1 (s.2 v)).map fun r =>
    (r.1, Function.update s.2 v r.2)

/-- `memory_c::invalidate` and its two overrides.
SRCLINE: memory.cc:2231-2254, 2455-2472, 2545-2559 -/
def invalidate [Inhabited δ] (h : Hierarchy δ) (org : Organisation) (pageAddr : Addr) :
    Option (Hierarchy δ) :=
  ((h.covered org).foldlM (h.sweepDcu (pageAddr + BitVec.ofNat 64 h.pageSize))
    (pageAddr, h.cache)).map fun s => { h with cache := s.2 }

/-- Whether a cache of the hierarchy hits; a missing cache never does. -/
def hits (h : Hierarchy δ) (v : DcuId) (addr : Addr) : Bool :=
  (h.cache v).any fun c => c.hits addr

/-- The addresses of the page at `pageAddr`. -/
def InPage (h : Hierarchy δ) (pageAddr addr : Addr) : Prop :=
  pageAddr.toNat ≤ addr.toNat ∧ addr.toNat < pageAddr.toNat + h.pageSize

instance (h : Hierarchy δ) (pageAddr addr : Addr) : Decidable (h.InPage pageAddr addr) :=
  inferInstanceAs (Decidable (_ ∧ _))

end Hierarchy

end MacSim.Model
