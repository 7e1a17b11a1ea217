import MacSim.Computation.FirstTouch
import MacSim.Model.PageMapper

/-!
# Page mapping

A mapper numbers the pages, or the regions, in the order of their first touch, and a physical
address is the number of the unit followed by the offset in it: `physAddr` says so in terms of
all addresses translated so far.  A later call does not change it, so that the addresses
returned at different times can be compared in the state after the last call.  There are no
more units than tags with room for an offset behind them, which is why tags do not overflow.
-/

set_option autoImplicit false

namespace MacSim.Analysis

open MacSim.Model MacSim.Computation

/-- The units of `2 ^ b` bytes of some addresses, in the order of the first touch. -/
def unitsOf (b : ℕ) (seen : List Addr) : List Addr :=
  (seen.map fun va : Addr => va >>> b).foldl firstTouch []

/-- The physical address of `va` after the addresses `seen` are translated. -/
def physAddr (b : ℕ) (seen : List Addr) (va : Addr) : Addr :=
  (BitVec.ofNat 64 ((unitsOf b seen).idxOf (va >>> b)) <<< b) ||| (va &&& nBitMask b)

variable {b p : ℕ} {seen : List Addr} {va va' : Addr}

/-! ## Physical addresses -/

/-- A unit is one that was touched exactly when an address seen lies in it. -/
theorem mem_unitsOf {u : Addr} : u ∈ unitsOf b seen ↔ ∃ va ∈ seen, va >>> b = u := by
  simp [unitsOf, mem_foldl_firstTouch]

/-- One more address touches its unit. -/
theorem unitsOf_concat : unitsOf b (seen ++ [va]) = firstTouch (unitsOf b seen) (va >>> b) := by
  simp [unitsOf]

/-- No unit is counted twice. -/
theorem unitsOf_nodup : (unitsOf b seen).Nodup := by
  induction seen using List.reverseRecOn with
  | nil => exact List.nodup_nil
  | append_singleton seen va ih => rw [unitsOf_concat]; exact firstTouch_nodup ih

/-- An address keeps its physical address. -/
theorem physAddr_append (h : va ∈ seen) (l : List Addr) :
    physAddr b (seen ++ l) va = physAddr b seen va := by
  have hmem : va >>> b ∈ unitsOf b seen := mem_unitsOf.mpr ⟨va, h, rfl⟩
  have hunits : unitsOf b (seen ++ l) = (l.map fun va : Addr => va >>> b).foldl firstTouch
      (unitsOf b seen) := by
    rw [unitsOf, unitsOf, List.map_append, List.foldl_append]
  rw [physAddr, physAddr, hunits, idxOf_foldl_firstTouch hmem]

/-- There is room for an offset behind the number of a unit. -/
theorem unit_number_lt (hb : b < 64) (h : va ∈ seen) :
    (unitsOf b seen).idxOf (va >>> b) < 2 ^ (64 - b) := by
  refine idxOf_lt_of_bound (f := BitVec.toNat) (fun x _ y _ hxy => BitVec.eq_of_toNat_eq hxy)
    unitsOf_nodup (fun u hu => ?_) (mem_unitsOf.mpr ⟨va, h, rfl⟩)
  obtain ⟨a, -, rfl⟩ := mem_unitsOf.mp hu
  rw [BitVec.toNat_ushiftRight, Nat.shiftRight_eq_div_pow]
  refine Nat.div_lt_of_lt_mul ?_
  rw [← pow_add, show b + (64 - b) = 64 by omega]
  exact a.isLt

/-- A mapped address lies in the unit of its number, at the same offset. -/
theorem toNat_physAddr (hb : b < 64) (h : va ∈ seen) :
    (physAddr b seen va).toNat =
      2 ^ b * (unitsOf b seen).idxOf (va >>> b) + va.toNat % 2 ^ b := by
  have hlt := unit_number_lt hb h
  have hpow : 2 ^ b * 2 ^ (64 - b) = 2 ^ 64 := by rw [← pow_add, show b + (64 - b) = 64 by omega]
  have hsmall : 2 ^ b * (unitsOf b seen).idxOf (va >>> b) < 2 ^ 64 := by
    rw [← hpow]
    exact Nat.mul_lt_mul_of_pos_left hlt (Nat.two_pow_pos b)
  have hnum : (unitsOf b seen).idxOf (va >>> b) < 2 ^ 64 :=
    lt_of_le_of_lt (Nat.le_mul_of_pos_left _ (Nat.two_pow_pos b)) hsmall
  rw [physAddr, BitVec.toNat_or, BitVec.toNat_shiftLeft, toNat_and_mask _ hb, BitVec.toNat_ofNat,
    Nat.mod_eq_of_lt hnum, Nat.shiftLeft_eq, Nat.mul_comm, Nat.mod_eq_of_lt hsmall,
    Nat.two_pow_add_eq_or_of_lt (Nat.mod_lt _ (Nat.two_pow_pos b))]

/-- Different addresses have different physical addresses. -/
theorem physAddr_inj (hb : b < 64) (h : va ∈ seen) (h' : va' ∈ seen)
    (heq : physAddr b seen va = physAddr b seen va') : va = va' := by
  have hnat := congrArg BitVec.toNat heq
  rw [toNat_physAddr hb h, toNat_physAddr hb h'] at hnat
  have hpos : 0 < 2 ^ b := Nat.two_pow_pos b
  have hdiv := congrArg (· / 2 ^ b) hnat
  have hmod := congrArg (· % 2 ^ b) hnat
  simp only [Nat.mul_add_div hpos, Nat.mul_add_mod, Nat.mod_mod,
    Nat.div_eq_of_lt (Nat.mod_lt _ hpos), Nat.add_zero] at hdiv hmod
  have hunit : va >>> b = va' >>> b :=
    (List.idxOf_inj (mem_unitsOf.mpr ⟨va, h, rfl⟩)).mp hdiv
  have hquot := congrArg BitVec.toNat hunit
  simp only [BitVec.toNat_ushiftRight, Nat.shiftRight_eq_div_pow] at hquot
  refine BitVec.eq_of_toNat_eq ?_
  rw [← Nat.div_add_mod va.toNat (2 ^ b), ← Nat.div_add_mod va'.toNat (2 ^ b), hquot, hmod]

/-- Addresses of one page have their physical addresses in one page. -/
theorem physAddr_page (hpb : p ≤ b) (h : va >>> p = va' >>> p) :
    physAddr b seen va >>> p = physAddr b seen va' >>> p := by
  have hunit : va >>> b = va' >>> b := by
    rw [← Nat.add_sub_of_le hpb, BitVec.shiftRight_add, BitVec.shiftRight_add, h]
  rw [physAddr, physAddr, BitVec.ushiftRight_or_distrib, BitVec.ushiftRight_or_distrib,
    BitVec.ushiftRight_and_distrib, BitVec.ushiftRight_and_distrib, hunit, h]

/-! ## Tables of tags -/

/-- The table has the numbers of the units of the addresses, and `tag` is the next number. -/
structure Numbered (b : ℕ) (seen : List Addr) (table : Addr → Option Addr) (tag : Addr) :
    Prop where
  table : ∀ u, table u =
    if u ∈ unitsOf b seen then some (BitVec.ofNat 64 ((unitsOf b seen).idxOf u)) else none
  tag : tag = BitVec.ofNat 64 (unitsOf b seen).length

variable {table : Addr → Option Addr} {tag t : Addr}

/-- At first no unit is numbered. -/
theorem Numbered.nil (b : ℕ) : Numbered b [] (fun _ => none) 0 :=
  ⟨fun u => by simp [unitsOf], rfl⟩

/-- The unit of an address has a number already. -/
theorem Numbered.known (h : Numbered b seen table tag) (hu : table (va >>> b) = some t) :
    Numbered b (seen ++ [va]) table tag ∧
      (t <<< b) ||| (va &&& nBitMask b) = physAddr b (seen ++ [va]) va := by
  rw [h.table] at hu
  split at hu
  · rename_i hmem
    have hunits : unitsOf b (seen ++ [va]) = unitsOf b seen := by
      rw [unitsOf_concat, firstTouch, if_pos hmem]
    refine ⟨⟨?_, ?_⟩, ?_⟩
    · rw [hunits]
      exact h.table
    · rw [hunits]
      exact h.tag
    · rw [physAddr, hunits, Option.some_inj.mp hu]
  · cases hu

/-- The unit of an address gets the next number. -/
theorem Numbered.fresh (h : Numbered b seen table tag) (hu : table (va >>> b) = none) :
    Numbered b (seen ++ [va]) (Function.update table (va >>> b) (some tag)) (tag + 1#64) ∧
      (tag <<< b) ||| (va &&& nBitMask b) = physAddr b (seen ++ [va]) va := by
  have hout : va >>> b ∉ unitsOf b seen := by
    intro hmem
    rw [h.table, if_pos hmem] at hu
    cases hu
  have hunits : unitsOf b (seen ++ [va]) = unitsOf b seen ++ [va >>> b] := by
    rw [unitsOf_concat, firstTouch, if_neg hout]
  have hindex : (unitsOf b seen ++ [va >>> b]).idxOf (va >>> b) = (unitsOf b seen).length := by
    rw [List.idxOf_append_of_notMem hout]
    simp
  refine ⟨⟨fun u => ?_, ?_⟩, ?_⟩
  · rw [hunits]
    by_cases hua : u = va >>> b
    · rw [hua, Function.update_self, if_pos (by simp), hindex, h.tag]
    · rw [Function.update_of_ne hua, h.table]
      by_cases hmem : u ∈ unitsOf b seen
      · rw [if_pos hmem, if_pos (List.mem_append_left _ hmem), List.idxOf_append_of_mem hmem]
      · rw [if_neg hmem, if_neg (by simp [hmem, hua])]
  · rw [hunits, h.tag, List.length_append, List.length_singleton, BitVec.ofNat_add]
  · rw [physAddr, hunits, hindex, h.tag]

/-! ## The two mappers -/

/-- A page size less one is a mask. -/
theorem size_mask (b : ℕ) : BitVec.ofNat 64 (2 ^ b) - 1#64 = nBitMask b := by
  have hone : BitVec.ofNat 64 (2 ^ b) = 1#64 <<< b := by
    refine BitVec.eq_of_toNat_eq ?_
    rw [BitVec.toNat_shiftLeft, BitVec.toNat_ofNat, Nat.shiftLeft_eq]
    norm_num
  rw [nBitMask, hone]

/-- The FCFS mapper after some calls. -/
structure FcfsMapped (b : ℕ) (seen : List Addr) (m : FcfsPageMapper) : Prop where
  pageSize : m.pageSize = 2 ^ b
  pages : Numbered b seen m.pageTable m.physicalTag

/-- A translation by the first mapper gives the address in first-touch order. -/
theorem FcfsMapped.translate {m : FcfsPageMapper} (h : FcfsMapped b seen m) (va : Addr) :
    (m.translate va).1 = physAddr b (seen ++ [va]) va ∧
      FcfsMapped b (seen ++ [va]) (m.translate va).2 := by
  simp only [FcfsPageMapper.translate, h.pageSize, log2Int_two_pow, size_mask]
  cases hpage : m.pageTable (va >>> b) with
  | none =>
      obtain ⟨hpages, hphys⟩ := h.pages.fresh hpage
      exact ⟨hphys, rfl, hpages⟩
  | some ppn =>
      obtain ⟨hpages, hphys⟩ := h.pages.known hpage
      exact ⟨hphys, h.pageSize, hpages⟩

/-- The region mapper after some calls: the page table has the pages of these addresses, with the
physical pages that were returned. -/
structure RegionMapped (p b : ℕ) (seen : List Addr) (m : RegionBasedFcfsPageMapper) : Prop where
  pageSize : m.pageSize = 2 ^ p
  regionSize : m.regionSize = 2 ^ b
  regions : Numbered b seen m.regionTable m.physicalTag
  pages : ∀ vpn ppn, m.pageTable vpn = some ppn ↔
    ∃ va ∈ seen, va >>> p = vpn ∧ physAddr b seen va >>> p = ppn

/-- A region mapper can be made, and stands for nothing seen. -/
theorem regionMapped_new (hpb : p ≤ b) :
    ∃ m, RegionBasedFcfsPageMapper.new (2 ^ p) (2 ^ b) = some m ∧ RegionMapped p b [] m := by
  have hsize : 2 ^ p ≤ 2 ^ b := Nat.pow_le_pow_right Nat.two_pos hpb
  refine ⟨_, if_pos hsize, ?_⟩
  exact ⟨rfl, rfl, Numbered.nil b, fun vpn ppn => by simp⟩

/-- The page of one more address is recorded. -/
theorem pages_concat (hpb : p ≤ b) {pageTable pageTable' : Addr → Option Addr}
    (h : ∀ vpn ppn, pageTable vpn = some ppn ↔
      ∃ va ∈ seen, va >>> p = vpn ∧ physAddr b seen va >>> p = ppn)
    (htable : pageTable' = Function.update pageTable (va >>> p)
      (some (physAddr b (seen ++ [va]) va >>> p))) (vpn ppn : Addr) :
    pageTable' vpn = some ppn ↔
      ∃ a ∈ seen ++ [va], a >>> p = vpn ∧ physAddr b (seen ++ [va]) a >>> p = ppn := by
  rw [htable]
  constructor
  · intro hv
    by_cases hvpn : vpn = va >>> p
    · rw [hvpn, Function.update_self] at hv
      exact ⟨va, by simp, hvpn.symm, Option.some_inj.mp hv⟩
    · rw [Function.update_of_ne hvpn, h] at hv
      obtain ⟨a, ha, hpage, hphys⟩ := hv
      exact ⟨a, List.mem_append_left _ ha, hpage, by rw [physAddr_append ha, hphys]⟩
  · rintro ⟨a, ha, rfl, rfl⟩
    by_cases hvpn : a >>> p = va >>> p
    · rw [hvpn, Function.update_self, physAddr_page hpb hvpn]
    · rw [Function.update_of_ne hvpn, h]
      rcases List.mem_append.mp ha with ha | ha
      · exact ⟨a, ha, rfl, by rw [physAddr_append ha]⟩
      · exact absurd (by rw [List.mem_singleton.mp ha]) hvpn

/-- A translation by the region mapper gives the address in first-touch order. -/
theorem RegionMapped.translate {m : RegionBasedFcfsPageMapper} (hpb : p ≤ b)
    (h : RegionMapped p b seen m) (va : Addr) :
    (m.translate va).1 = physAddr b (seen ++ [va]) va ∧
      RegionMapped p b (seen ++ [va]) (m.translate va).2 := by
  simp only [RegionBasedFcfsPageMapper.translate, h.pageSize, h.regionSize, log2Int_two_pow,
    size_mask]
  cases hregion : m.regionTable (va >>> b) with
  | none =>
      obtain ⟨hregions, hphys⟩ := h.regions.fresh hregion
      exact ⟨hphys, rfl, rfl, hregions, pages_concat hpb h.pages (by rw [hphys])⟩
  | some tag =>
      obtain ⟨hregions, hphys⟩ := h.regions.known hregion
      dsimp only
      cases hpage : m.pageTable (va >>> p) with
      | none =>
          exact ⟨hphys, rfl, rfl, hregions, pages_concat hpb h.pages (by rw [hphys])⟩
      | some ppn =>
          refine ⟨hphys, h.pageSize, h.regionSize, hregions, pages_concat hpb h.pages ?_⟩
          -- the page was recorded for an address of the same page
          obtain ⟨a, ha, hsame, hppn⟩ := (h.pages _ _).mp hpage
          have hold : some (physAddr b (seen ++ [va]) va >>> p) = m.pageTable (va >>> p) := by
            rw [← physAddr_page hpb hsame, physAddr_append ha, hppn, hpage]
          rw [hold, Function.update_eq_self]

/-! ## Histories -/

/-- The physical addresses of a history are the ones after its last call. -/
theorem translations_eq {σ : Type} {translate : σ → Addr → Addr × σ}
    {Mapped : List Addr → σ → Prop}
    (hstep : ∀ seen m va, Mapped seen m → (translate m va).1 = physAddr b (seen ++ [va]) va ∧
      Mapped (seen ++ [va]) (translate m va).2)
    (vas : List Addr) {m : σ} (h : Mapped seen m) :
    (translations translate m vas).1 = vas.map (fun va => (va, physAddr b (seen ++ vas) va)) ∧
      Mapped (seen ++ vas) (translations translate m vas).2 := by
  induction vas generalizing seen m with
  | nil => exact ⟨rfl, by rwa [List.append_nil]⟩
  | cons va vas ih =>
      obtain ⟨hphys, hnext⟩ := hstep seen m va h
      obtain ⟨hrest, hlast⟩ := ih hnext
      rw [List.append_assoc, List.singleton_append] at hrest hlast
      refine ⟨?_, hlast⟩
      have hmem : va ∈ seen ++ [va] := by simp
      have hlater := physAddr_append (b := b) hmem vas
      rw [List.append_assoc, List.singleton_append] at hlater
      rw [translations, hrest, hphys, ← hlater, List.map_cons]

/-- The history of a mapping that is stable, one to one, and leaves the offset in a unit of
`size` bytes alone. -/
structure StableInjection (size : ℕ) (vas : List Addr) (history : List (Addr × Addr)) :
    Prop where
  calls : history.map Prod.fst = vas
  agree : ∀ x ∈ history, ∀ y ∈ history, x.1 = y.1 ↔ x.2 = y.2
  offset : ∀ x ∈ history, x.2.toNat % size = x.1.toNat % size

/-- The addresses in first-touch order are a stable injection. -/
theorem stableInjection_physAddr (hb : b < 64) (vas : List Addr) :
    StableInjection (2 ^ b) vas (vas.map fun va => (va, physAddr b vas va)) where
  calls := by
    rw [List.map_map]
    exact List.map_id vas
  agree x hx y hy := by
    obtain ⟨va, hva, rfl⟩ := List.mem_map.mp hx
    obtain ⟨va', hva', rfl⟩ := List.mem_map.mp hy
    exact ⟨fun h => congrArg (physAddr b vas) h, physAddr_inj hb hva hva'⟩
  offset x hx := by
    obtain ⟨va, hva, rfl⟩ := List.mem_map.mp hx
    rw [toNat_physAddr hb hva, Nat.mul_add_mod, Nat.mod_mod]

/-- Both mappers translate one to one and for good, at the granularity of pages and of regions,
and the page table of the region mapper has the pages that were translated with the physical
pages that were returned. -/
theorem page_mapping_stable_injection (p b : ℕ) (hp : p < 32) (hb : b < 64) (hpb : p ≤ b)
    (vas : List Addr) :
    StableInjection (2 ^ p) vas
        (translations FcfsPageMapper.translate (FcfsPageMapper.new (2 ^ p)) vas).1 ∧
    ∃ m, RegionBasedFcfsPageMapper.new (2 ^ p) (2 ^ b) = some m ∧
      StableInjection (2 ^ b) vas
        (translations RegionBasedFcfsPageMapper.translate m vas).1 ∧
      ∀ vpn ppn,
        (translations RegionBasedFcfsPageMapper.translate m vas).2.pageTable vpn = some ppn ↔
        ∃ x ∈ (translations RegionBasedFcfsPageMapper.translate m vas).1,
          x.1 >>> p = vpn ∧ x.2 >>> p = ppn := by
  constructor
  · have hnew : FcfsMapped p [] (FcfsPageMapper.new (2 ^ p)) := ⟨rfl, Numbered.nil p⟩
    have hstep (seen : List Addr) (m : FcfsPageMapper) (va : Addr) (h : FcfsMapped p seen m) :
        (m.translate va).1 = physAddr p (seen ++ [va]) va ∧
          FcfsMapped p (seen ++ [va]) (m.translate va).2 := h.translate va
    obtain ⟨hhistory, -⟩ := translations_eq hstep vas hnew
    rw [hhistory, List.nil_append]
    exact stableInjection_physAddr (hp.trans (by norm_num)) vas
  · obtain ⟨m, hm, hmapped⟩ := regionMapped_new hpb
    refine ⟨m, hm, ?_⟩
    have hstep (seen : List Addr) (m : RegionBasedFcfsPageMapper) (va : Addr)
        (h : RegionMapped p b seen m) :
        (m.translate va).1 = physAddr b (seen ++ [va]) va ∧
          RegionMapped p b (seen ++ [va]) (m.translate va).2 := h.translate hpb va
    obtain ⟨hhistory, hlast⟩ := translations_eq hstep vas hmapped
    rw [hhistory]
    refine ⟨stableInjection_physAddr hb vas, fun vpn ppn => ?_⟩
    rw [hlast.pages, List.nil_append]
    simp only [List.mem_map, exists_exists_and_eq_and]

/-- Pages of 4 KB in regions of 1 MB: two pages of one region and one of another. -/
theorem page_mapping_stable_injection_regions :
    ∃ m, RegionBasedFcfsPageMapper.new (2 ^ 12) (2 ^ 20) = some m ∧
      StableInjection (2 ^ 20) [0x12345678, 0x7654321, 0x12340000]
        (translations RegionBasedFcfsPageMapper.translate m
          [0x12345678, 0x7654321, 0x12340000]).1 := by
  obtain ⟨-, m, hm, hinj, -⟩ := page_mapping_stable_injection 12 20 (by norm_num)
    (by norm_num) (by norm_num) [0x12345678, 0x7654321, 0x12340000]
  exact ⟨m, hm, hinj⟩

end MacSim.Analysis
