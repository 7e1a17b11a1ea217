import MacSim.Computation.FirstTouch
import MacSim.Analysis.StreamAlignment

/-!
# Coalescing

The lines that the lanes of a warp touch are those of the bytes they access, each lane relocated
to the address space of its process.  The decoder looks at the first and the last byte of a lane
only, which is enough as an access is no longer than a line.  Two things go wrong: the product
that relocates the lanes behind lane 0 is one of 32-bit words, and a lane whose first line is
line 0 is taken for one that accesses nothing.
-/

set_option autoImplicit false

namespace MacSim.Analysis

open MacSim.Model MacSim.Computation

namespace GpuKnobs

variable {ρ : Type}

/-! ## Lines -/

/-- A line has some bytes. -/
theorem bytes_pos (l : LineSize) : 0 < l.bytes := Nat.two_pow_pos _

/-- The size of a line is a power of two. -/
theorem bytes_dvd {n : ℕ} (l : LineSize) (hn : 31 ≤ n) : l.bytes ∣ 2 ^ n :=
  Nat.pow_dvd_pow 2 (by
    have := l.small
    omega)

/-- A line is no longer than the longest one. -/
theorem bytes_le (l : LineSize) : l.bytes ≤ 2 ^ 31 :=
  Nat.le_of_dvd (Nat.two_pow_pos _) (bytes_dvd l le_rfl)

/-- The two ways of masking the offset in the line. -/
theorem neg_bytes (l : LineSize) : -BitVec.ofNat 64 l.bytes = ~~~nBitMask l.bits := by
  have hsmall := l.small
  have hlt : 2 ^ l.bits < 2 ^ 64 := Nat.pow_lt_pow_right (by omega) (by omega)
  have hpos : 0 < 2 ^ l.bits := Nat.two_pow_pos _
  apply BitVec.eq_of_toNat_eq
  rw [BitVec.toNat_neg, BitVec.toNat_not, toNat_nBitMask (by omega), BitVec.toNat_ofNat,
    LineSize.bytes, Nat.mod_eq_of_lt hlt]
  omega

/-- Clearing the low bits of an address rounds it down. -/
theorem toNat_and_not_mask (a : Addr) {b : ℕ} (hb : b < 64) :
    (a &&& ~~~nBitMask b).toNat = a.toNat / 2 ^ b * 2 ^ b := by
  have hmask : ∀ i (hi : i < 64), (nBitMask b)[i] = decide (i < b) := by
    intro i hi
    rw [← BitVec.getLsbD_eq_getElem, ← BitVec.testBit_toNat, toNat_nBitMask hb,
      Nat.testBit_two_pow_sub_one]
  have hshift : a &&& ~~~nBitMask b = a >>> b <<< b := by
    ext i hi
    rw [BitVec.getElem_and, BitVec.getElem_not, hmask i hi, BitVec.getElem_shiftLeft,
      BitVec.getElem_ushiftRight, ← BitVec.getLsbD_eq_getElem]
    by_cases hib : i < b
    · simp [hib]
    · have hsum : b + (i - b) = i := by omega
      simp [hib, hsum]
  have hle : a.toNat / 2 ^ b * 2 ^ b ≤ a.toNat := Nat.div_mul_le_self _ _
  rw [hshift, BitVec.toNat_shiftLeft, BitVec.toNat_ushiftRight, Nat.shiftRight_eq_div_pow,
    Nat.shiftLeft_eq, Nat.mod_eq_of_lt (lt_of_le_of_lt hle a.isLt)]

/-- The base of the line of an address. -/
theorem toNat_lineAddr (g : GpuKnobs ρ) (u : LineUnit) (a : Addr) :
    (g.lineAddr u a).toNat = a.toNat / (g.lineSize u).bytes * (g.lineSize u).bytes := by
  have hsmall := (g.lineSize u).small
  have hmask : g.lineAddr u a = a &&& ~~~nBitMask (g.lineSize u).bits := by
    cases u with
    | memory => exact congrArg (a &&& ·) (neg_bytes _)
    | _ =>
        change a &&& ~~~nBitMask (log2Int (2 ^ _)) = _
        rw [log2Int_two_pow]
  rw [hmask, toNat_and_not_mask a (by omega)]
  rfl

/-- The line of a byte behind an address, which may be behind the end of the address space. -/
theorem toNat_lineAddr_add (g : GpuKnobs ρ) (u : LineUnit) (a : Addr) (i : ℕ) :
    (g.lineAddr u (a + BitVec.ofNat 64 i)).toNat =
      (a.toNat + i) / (g.lineSize u).bytes % (2 ^ 64 / (g.lineSize u).bytes) *
        (g.lineSize u).bytes := by
  have hspace : (g.lineSize u).bytes * (2 ^ 64 / (g.lineSize u).bytes) = 2 ^ 64 :=
    Nat.mul_div_cancel' (bytes_dvd _ (by omega))
  have hsum : (a + BitVec.ofNat 64 i).toNat = (a.toNat + i) % 2 ^ 64 := by
    rw [BitVec.toNat_add, BitVec.toNat_ofNat, Nat.add_mod_mod]
  rw [toNat_lineAddr, hsum]
  congr 1
  calc (a.toNat + i) % 2 ^ 64 / (g.lineSize u).bytes
      = (a.toNat + i) % ((g.lineSize u).bytes * (2 ^ 64 / (g.lineSize u).bytes)) /
          (g.lineSize u).bytes := by rw [hspace]
    _ = _ := Nat.mod_mul_right_div_self _ _ _

/-- The bytes of a short access are in the line of the first or in that of the last one. -/
theorem lineAddr_byte (g : GpuKnobs ρ) (u : LineUnit) (a : Addr) {i n : ℕ} (hi : i < n)
    (hn : n ≤ (g.lineSize u).bytes) :
    g.lineAddr u (a + BitVec.ofNat 64 i) = g.lineAddr u a ∨
      g.lineAddr u (a + BitVec.ofNat 64 i) = g.lineAddr u (a + BitVec.ofNat 64 (n - 1)) := by
  have hpos := bytes_pos (g.lineSize u)
  have hfirst := toNat_lineAddr_add g u a 0
  have hbyte := toNat_lineAddr_add g u a i
  have hlast := toNat_lineAddr_add g u a (n - 1)
  rw [show a + BitVec.ofNat 64 0 = a from BitVec.add_zero a, Nat.add_zero] at hfirst
  generalize (g.lineSize u).bytes = size at *
  have hmono : (a.toNat + i) / size ≤ (a.toNat + (n - 1)) / size :=
    Nat.div_le_div_right (by omega)
  have hfar : (a.toNat + (n - 1)) / size ≤ a.toNat / size + 1 := by
    rw [← Nat.add_div_right _ hpos]
    exact Nat.div_le_div_right (by omega)
  have hnear : a.toNat / size ≤ (a.toNat + i) / size := Nat.div_le_div_right (by omega)
  rcases Nat.lt_or_ge (a.toNat / size) ((a.toNat + i) / size) with hnext | hsame
  · refine Or.inr (BitVec.eq_of_toNat_eq ?_)
    rw [hbyte, hlast, show (a.toNat + i) / size = (a.toNat + (n - 1)) / size by omega]
  · refine Or.inl (BitVec.eq_of_toNat_eq ?_)
    rw [hbyte, hfirst, show (a.toNat + i) / size = a.toNat / size by omega]

/-! ## What the lanes touch -/

/-- The addresses of the lanes. -/
def laneAddrs (g : GpuKnobs ρ) (x : ρ × List ρ) : List Addr :=
  g.memAddr x.1 :: (List.range (g.warpSize - 1)).map (laneAt g x.2)

/-- The addresses of the active lanes. -/
def activeAddrs (g : GpuKnobs ρ) (x : ρ × List ρ) : List Addr :=
  (laneAddrs g x).filter fun a => a ≠ 0

/-- The lines of the bytes of an access, byte by byte. -/
def byteLines (g : GpuKnobs ρ) (r : ρ) (a : Addr) : List Addr :=
  (List.range (g.accessSize r)).map fun i => g.lineAddr (g.unit r) (a + BitVec.ofNat 64 i)

/-- The lines that the active lanes touch in the address space of their process, in the order in
which they are touched first. -/
def touchedLines (g : GpuKnobs ρ) (x : ρ × List ρ) : List Addr :=
  ((activeAddrs g x).flatMap fun a => byteLines g x.1 (a + g.uopOffset)).foldl firstTouch []

/-- The lines that the lanes touch, byte by byte. -/
theorem mem_touchedLines {g : GpuKnobs ρ} {x : ρ × List ρ} {line : Addr} :
    line ∈ touchedLines g x ↔ ∃ a ∈ activeAddrs g x, ∃ i < g.accessSize x.1,
      line = g.lineAddr (g.unit x.1) (a + g.uopOffset + BitVec.ofNat 64 i) := by
  unfold touchedLines byteLines
  rw [mem_foldl_firstTouch]
  simp only [List.not_mem_nil, false_or, List.mem_flatMap, List.mem_map, List.mem_range, eq_comm]

/-- The active addresses are those of the lanes that are not zero. -/
theorem mem_activeAddrs {g : GpuKnobs ρ} {x : ρ × List ρ} {a : Addr} :
    a ∈ activeAddrs g x ↔
      a ≠ 0 ∧ (a = g.memAddr x.1 ∨ ∃ j < g.warpSize - 1, a = laneAt g x.2 j) := by
  unfold activeAddrs laneAddrs
  rw [List.mem_filter, List.mem_cons]
  simp only [List.mem_map, List.mem_range, decide_eq_true_eq, eq_comm (a := a)]
  exact and_comm

/-! ## Collecting -/

/-- A lane adds its two lines unless the first one is zero. -/
theorem collect_eq (seen : List Addr) (lines : Addr × Addr) :
    GpuKnobs.collect seen lines =
      if lines.1 ≠ 0 then firstTouch (firstTouch seen lines.1) lines.2 else seen := rfl

/-- The lines after a lane are those before and the lane's. -/
theorem mem_collect {seen : List Addr} {lines : Addr × Addr} {line : Addr} :
    line ∈ GpuKnobs.collect seen lines ↔
      line ∈ seen ∨ lines.1 ≠ 0 ∧ (line = lines.1 ∨ line = lines.2) := by
  rw [collect_eq]
  split
  · rw [mem_firstTouch, mem_firstTouch]
    tauto
  · tauto

/-- The lines after all lanes are the first ones and those of the lanes. -/
theorem mem_foldl_collect {pairs : List (Addr × Addr)} {seen : List Addr} {line : Addr} :
    line ∈ pairs.foldl GpuKnobs.collect seen ↔
      line ∈ seen ∨ ∃ p ∈ pairs, p.1 ≠ 0 ∧ (line = p.1 ∨ line = p.2) := by
  induction pairs generalizing seen with
  | nil => simp
  | cons p pairs ih =>
      rw [List.foldl_cons, ih, mem_collect]
      simp only [List.mem_cons, exists_eq_or_imp]
      exact or_assoc

/-- The line of the last byte of an access. -/
theorem accessLines_eq {g : GpuKnobs ρ} {r : ρ} (a : Addr) (hsize : g.accessSize r ≠ 0) :
    g.accessLines r a = (g.lineAddr (g.unit r) a,
      g.lineAddr (g.unit r) (a + BitVec.ofNat 64 (g.accessSize r - 1))) := by
  obtain ⟨n, hn⟩ := Nat.exists_eq_succ_of_ne_zero hsize
  have hlast : a + BitVec.ofNat 64 (g.accessSize r) - 1 =
      a + BitVec.ofNat 64 (g.accessSize r - 1) := by
    rw [hn, Nat.succ_eq_add_one, Nat.add_sub_cancel, BitVec.ofNat_add, ← BitVec.add_assoc]
    exact BitVec.add_sub_cancel _ _
  rw [GpuKnobs.accessLines, hlast]

/-- A lane that is seen: its first line is not line 0. -/
theorem collect_lane {g : GpuKnobs ρ} {r : ρ} {a : Addr} (seen : List Addr)
    (hsize : g.accessSize r ≠ 0) (hshort : g.accessSize r ≤ (g.lineSize (g.unit r)).bytes)
    (hline : g.lineAddr (g.unit r) a ≠ 0) :
    GpuKnobs.collect seen (g.accessLines r a) = (byteLines g r a).foldl firstTouch seen := by
  obtain ⟨n, hn⟩ := Nat.exists_eq_succ_of_ne_zero hsize
  have hfirst : g.lineAddr (g.unit r) (a + BitVec.ofNat 64 0) = g.lineAddr (g.unit r) a := by
    congr 1
    exact BitVec.add_zero a
  have hbytes : byteLines g r a = g.lineAddr (g.unit r) a ::
      (List.range n).map fun i => g.lineAddr (g.unit r) (a + BitVec.ofNat 64 (i + 1)) := by
    unfold byteLines
    rw [hn, List.range_succ_eq_map, List.map_cons, List.map_map, hfirst]
    rfl
  have hpair : ∀ line ∈ byteLines g r a, line = g.lineAddr (g.unit r) a ∨
      line = g.lineAddr (g.unit r) (a + BitVec.ofNat 64 (g.accessSize r - 1)) := by
    intro line hmem
    obtain ⟨i, hi, rfl⟩ := List.mem_map.mp hmem
    exact lineAddr_byte g _ a (List.mem_range.mp hi) hshort
  have hmem : g.lineAddr (g.unit r) (a + BitVec.ofNat 64 (g.accessSize r - 1)) ∈
      byteLines g r a :=
    List.mem_map.mpr ⟨g.accessSize r - 1, List.mem_range.mpr (by omega), rfl⟩
  rw [hbytes] at hpair hmem ⊢
  rw [foldl_firstTouch_pair hpair hmem, collect_eq, accessLines_eq a hsize, if_pos hline]

/-- The lines of a lane that is relocated as it should be. -/
def lanePair (g : GpuKnobs ρ) (r : ρ) (a : Addr) : Addr × Addr :=
  if a ≠ 0 then g.accessLines r (a + g.uopOffset) else (0, 0)

/-- Lanes that are relocated as they should be and are all seen. -/
theorem foldl_lanePair {g : GpuKnobs ρ} {r : ρ} {l : List Addr} (seen : List Addr)
    (hsize : g.accessSize r ≠ 0) (hshort : g.accessSize r ≤ (g.lineSize (g.unit r)).bytes)
    (hline : ∀ a ∈ l, a ≠ 0 → g.lineAddr (g.unit r) (a + g.uopOffset) ≠ 0) :
    (l.map (lanePair g r)).foldl GpuKnobs.collect seen =
      ((l.filter fun a => a ≠ 0).flatMap fun a => byteLines g r (a + g.uopOffset)).foldl
        firstTouch seen := by
  induction l generalizing seen with
  | nil => rfl
  | cons a l ih =>
      have hrest := fun seen => ih seen fun b hb => hline b (List.mem_cons_of_mem _ hb)
      rw [List.map_cons, List.foldl_cons, hrest]
      by_cases ha : a = 0
      · rw [lanePair, if_neg (not_not.mpr ha), List.filter_cons_of_neg (by simp [ha])]
        rfl
      · rw [lanePair, if_pos ha, collect_lane seen hsize hshort (hline a List.mem_cons_self ha),
          List.filter_cons_of_pos (by simpa using ha), List.flatMap_cons, List.foldl_append]

/-- When the lanes of a warp are relocated alike, each is seen, and there are bits for the
lines. -/
structure Coalescable (g : GpuKnobs ρ) (x : ρ × List ρ) : Prop where
  warp : 2 ≤ g.warpSize
  space : g.laneOffset = g.uopOffset ∨ ∀ j < g.warpSize - 1, laneAt g x.2 j = 0
  seen : ∀ a ∈ activeAddrs g x, g.lineAddr (g.unit x.1) (a + g.uopOffset) ≠ 0
  few : (touchedLines g x).length ≤ 64

/-- In a coalescable group the collected lines are those that are touched. -/
theorem Coalescable.collectedLines {g : GpuKnobs ρ} {x : ρ × List ρ} (h : Coalescable g x)
    (hsize : g.accessSize x.1 ≠ 0)
    (hshort : g.accessSize x.1 ≤ (g.lineSize (g.unit x.1)).bytes) :
    collectedLines g x.1 x.2 (g.warpSize - 1) = touchedLines g x := by
  have hline : ∀ a ∈ laneAddrs g x, a ≠ 0 →
      g.lineAddr (g.unit x.1) (a + g.uopOffset) ≠ 0 := fun a ha hne =>
    h.seen a (List.mem_filter.mpr ⟨ha, by simpa using hne⟩)
  have huop : g.uopLines x.1 = lanePair g x.1 (g.memAddr x.1) := by
    unfold GpuKnobs.uopLines lanePair
    by_cases hzero : g.memAddr x.1 = 0
    · simp [hzero]
    · have hvaddr : g.memAddr x.1 + g.uopOffset ≠ 0 := by
        intro hvaddr
        refine hline _ List.mem_cons_self hzero (BitVec.eq_of_toNat_eq ?_)
        rw [hvaddr, toNat_lineAddr]
        simp
      rw [if_neg hzero]
      exact (if_pos ⟨hvaddr, hsize⟩).trans (if_pos hzero).symm
  have hlanes : ((List.range (g.warpSize - 1)).map fun i => g.laneLines x.1 (laneAt g x.2 i)) =
      ((List.range (g.warpSize - 1)).map (laneAt g x.2)).map (lanePair g x.1) := by
    rw [List.map_map]
    refine List.map_congr_left fun j hj => ?_
    unfold GpuKnobs.laneLines
    rw [Function.comp_apply, lanePair]
    rcases h.space with hsame | hnone
    · simp [hsame, hsize]
    · rw [hnone j (List.mem_range.mp hj)]
      simp
  rw [touchedLines, activeAddrs, ← foldl_lanePair [] hsize hshort hline, laneAddrs,
    List.map_cons, List.foldl_cons, ← huop, ← hlanes]
  rfl

/-! ## The child uops -/

/-- The children of a memory uop are what the lanes of the warp ask for. -/
structure CoalescedExactly (g : GpuKnobs ρ) (x : ρ × List ρ) (first : ℕ)
    (u : CoalescedUop ρ) : Prop where
  distinct : (u.children.map (·.vaddr)).Nodup
  lines : ∀ line, line ∈ u.children.map (·.vaddr) ↔
    ∃ a ∈ activeAddrs g x, ∃ i < g.accessSize x.1,
      line = g.lineAddr (g.unit x.1) (a + g.uopOffset + BitVec.ofNat 64 i)
  order : u.children.map (·.vaddr) = touchedLines g x
  numbers : u.children.map (·.uopNum) = List.range' first u.children.length
  room : u.children.length ≤ 64
  pending : ∀ i < 64, u.pendingChildUops.getLsbD i = decide (i < u.children.length)

/-- There is one child for each line. -/
theorem children_vaddr (first : ℕ) (lines : List Addr) :
    (GpuKnobs.children first lines).map (·.vaddr) = lines := by
  unfold GpuKnobs.children
  rw [List.map_map]
  exact List.zipIdx_map_fst 0 lines

/-- The children are numbered in order. -/
theorem children_uopNum (first : ℕ) (lines : List Addr) :
    (GpuKnobs.children first lines).map (·.uopNum) = List.range' first lines.length := by
  unfold GpuKnobs.children
  rw [List.map_map]
  change (lines.zipIdx.map ((first + ·) ∘ Prod.snd)) = _
  rw [← List.map_map, List.zipIdx_map_snd, List.map_add_range', Nat.add_zero]

/-- There are as many children as lines. -/
theorem children_length (first : ℕ) (lines : List Addr) :
    (GpuKnobs.children first lines).length = lines.length := by
  rw [GpuKnobs.children, List.length_map, List.length_zipIdx]

/-- The mask has a bit for each child. -/
theorem pendingMask_getLsbD {n i : ℕ} (hn : n ≤ 64) :
    (GpuKnobs.pendingMask n).getLsbD i = decide (i < n) := by
  unfold GpuKnobs.pendingMask
  split
  · next h =>
    rw [h, BitVec.getLsbD_allOnes]
  · next h =>
    rw [← BitVec.testBit_toNat, toNat_nBitMask (by omega), Nat.testBit_two_pow_sub_one]

/-- The uop that the decoder makes from the lines that the lanes touch. -/
theorem coalescedExactly_of_lines {g : GpuKnobs ρ} {x : ρ × List ρ} {lanes : List ρ} (first : ℕ)
    (hfew : (touchedLines g x).length ≤ 64) :
    CoalescedExactly g x first ⟨x.1, lanes, GpuKnobs.children first (touchedLines g x),
      GpuKnobs.pendingMask (touchedLines g x).length⟩ where
  distinct := by
    rw [children_vaddr]
    exact foldl_firstTouch_nodup List.nodup_nil _
  lines := fun line => by
    rw [children_vaddr]
    exact mem_touchedLines
  order := children_vaddr _ _
  numbers := by
    rw [children_uopNum]
    exact congrArg (List.range' first) (children_length _ _).symm
  room := (children_length _ _).trans_le hfew
  pending := fun i _ => by
    rw [pendingMask_getLsbD hfew]
    exact congrArg (fun n => decide (i < n)) (children_length _ _).symm

/-! ## Lanes that are not coalesced exactly -/

/-- Small process ids, and accesses that stay in the address space when they are relocated. -/
structure InSpace (g : GpuKnobs ρ) (x : ρ × List ρ) : Prop where
  process : 10 * g.processId ≤ 2 ^ 31
  fits : ∀ a ∈ activeAddrs g x, a.toNat + g.uopOffset.toNat + g.accessSize x.1 ≤ 2 ^ 64

/-- The two relocations differ by a multiple of `2 ^ 32`, which is none only for process 0. -/
theorem uopOffset_eq {g : GpuKnobs ρ} (h : 10 * g.processId ≤ 2 ^ 31) :
    g.uopOffset.toNat =
      0xFFFFFFFF * g.processId * 10 / 2 ^ 32 * 2 ^ 32 + g.laneOffset.toNat := by
  obtain ⟨t, ht⟩ := bytes_dvd (g.lineSize .memory) (show 31 ≤ 32 by omega)
  have hpos := bytes_pos (g.lineSize .memory)
  have hlt : 0xFFFFFFFF * g.processId * 10 < 2 ^ 64 := by omega
  have hmod := Nat.div_add_mod (0xFFFFFFFF * g.processId * 10) (2 ^ 32)
  have hlow : 0xFFFFFFFF * g.processId * 10 % 2 ^ 32 < 2 ^ 64 := by omega
  unfold GpuKnobs.uopOffset GpuKnobs.laneOffset
  rw [toNat_lineAddr, toNat_lineAddr, BitVec.toNat_ofNat, BitVec.toNat_ofNat,
    Nat.mod_eq_of_lt hlt, Nat.mod_eq_of_lt hlow]
  generalize 0xFFFFFFFF * g.processId * 10 = n at *
  generalize (g.lineSize LineUnit.memory).bytes = size at *
  have hdiv : n / size = t * (n / 2 ^ 32) + n % 2 ^ 32 / size := by
    calc n / size = (n % 2 ^ 32 + size * (t * (n / 2 ^ 32))) / size := by
          congr 1
          rw [← Nat.mul_assoc, ← ht]
          omega
      _ = _ := by rw [Nat.add_mul_div_left _ _ hpos, Nat.add_comm]
  rw [hdiv, Nat.add_mul, ht]
  ring

/-- A process other than process 0 has no low lane addresses. -/
theorem laneOffset_ge {g : GpuKnobs ρ} (h : 10 * g.processId ≤ 2 ^ 31) (hid : g.processId ≠ 0) :
    2 ^ 31 ≤ g.laneOffset.toNat := by
  obtain ⟨t, ht⟩ := bytes_dvd (g.lineSize .memory) le_rfl
  have hpos := bytes_pos (g.lineSize .memory)
  have hlow : 0xFFFFFFFF * g.processId * 10 % 2 ^ 32 < 2 ^ 64 := by omega
  have hprod : 0xFFFFFFFF * g.processId * 10 =
      2 ^ 32 - 10 * g.processId + 2 ^ 32 * (10 * g.processId - 1) := by omega
  have hge : 2 ^ 31 ≤ 0xFFFFFFFF * g.processId * 10 % 2 ^ 32 := by
    rw [hprod, Nat.add_mul_mod_self_left, Nat.mod_eq_of_lt (by omega)]
    omega
  unfold GpuKnobs.laneOffset
  rw [toNat_lineAddr, BitVec.toNat_ofNat, Nat.mod_eq_of_lt hlow]
  generalize 0xFFFFFFFF * g.processId * 10 % 2 ^ 32 = n at *
  generalize (g.lineSize LineUnit.memory).bytes = size at *
  calc 2 ^ 31 = t * size := by rw [ht, Nat.mul_comm]
    _ ≤ n / size * size := by
        refine Nat.mul_le_mul_right _ ((Nat.le_div_iff_mul_le hpos).mpr ?_)
        rw [Nat.mul_comm, ← ht]
        exact hge

/-- The line of a byte of a relocated access. -/
theorem toNat_relocated (g : GpuKnobs ρ) (u : LineUnit) {a offset : Addr} {i : ℕ}
    (h : a.toNat + offset.toNat + i < 2 ^ 64) :
    (g.lineAddr u (a + offset + BitVec.ofNat 64 i)).toNat =
      (a.toNat + offset.toNat + i) / (g.lineSize u).bytes * (g.lineSize u).bytes := by
  rw [toNat_lineAddr, BitVec.toNat_add, BitVec.toNat_add, BitVec.toNat_ofNat]
  congr 2
  omega

/-- The collected lines are those of the uop and of its lanes. -/
theorem mem_collectedLines {g : GpuKnobs ρ} {r : ρ} {lanes : List ρ} {j : ℕ} {line : Addr} :
    line ∈ collectedLines g r lanes j ↔
      ((g.uopLines r).1 ≠ 0 ∧ (line = (g.uopLines r).1 ∨ line = (g.uopLines r).2)) ∨
        ∃ i < j, (g.laneLines r (laneAt g lanes i)).1 ≠ 0 ∧
          (line = (g.laneLines r (laneAt g lanes i)).1 ∨
            line = (g.laneLines r (laneAt g lanes i)).2) := by
  unfold collectedLines
  rw [mem_foldl_collect, mem_collect]
  simp only [List.not_mem_nil, false_or, List.mem_map, List.mem_range, exists_exists_and_eq_and]

/-- A collected line is one of a lane that is seen. -/
theorem seen_of_collected {g : GpuKnobs ρ} {x : ρ × List ρ} {line : Addr}
    (hsize : g.accessSize x.1 ≠ 0)
    (h : line ∈ collectedLines g x.1 x.2 (g.warpSize - 1)) :
    ∃ a ∈ activeAddrs g x, ∃ offset,
      (a = g.memAddr x.1 ∧ offset = g.uopOffset ∨
        (∃ j < g.warpSize - 1, a = laneAt g x.2 j) ∧ offset = g.laneOffset) ∧
      g.lineAddr (g.unit x.1) (a + offset) ≠ 0 ∧
      ∃ i < g.accessSize x.1, line = g.lineAddr (g.unit x.1) (a + offset + BitVec.ofNat 64 i) := by
  have hbytes : ∀ a, (line = (g.accessLines x.1 a).1 ∨ line = (g.accessLines x.1 a).2) →
      ∃ i < g.accessSize x.1, line = g.lineAddr (g.unit x.1) (a + BitVec.ofNat 64 i) := by
    intro a hline
    rw [accessLines_eq a hsize] at hline
    rcases hline with hfirst | hlast
    · refine ⟨0, by omega, hfirst.trans ?_⟩
      exact congrArg (g.lineAddr (g.unit x.1)) (BitVec.add_zero a).symm
    · exact ⟨g.accessSize x.1 - 1, by omega, hlast⟩
  rcases mem_collectedLines.mp h with ⟨hne, hline⟩ | ⟨j, hj, hne, hline⟩
  · unfold GpuKnobs.uopLines at hne hline
    by_cases hzero : g.memAddr x.1 = 0
    · simp [hzero] at hne
    · rw [if_neg hzero] at hne hline
      dsimp only at hne hline
      split at hne
      · next hkept =>
        rw [if_pos hkept] at hline
        exact ⟨_, mem_activeAddrs.mpr ⟨hzero, .inl rfl⟩, _, .inl ⟨rfl, rfl⟩, hne, hbytes _ hline⟩
      · exact absurd rfl hne
  · unfold GpuKnobs.laneLines at hne hline
    split at hne
    · next hkept =>
      rw [if_pos hkept] at hline
      exact ⟨_, mem_activeAddrs.mpr ⟨hkept.1, .inr ⟨j, hj, rfl⟩⟩, _, .inr ⟨⟨j, hj, rfl⟩, rfl⟩, hne,
        hbytes _ hline⟩
    · exact absurd rfl hne

/-- The first line of a lane that is seen is collected. -/
theorem collected_of_seen {g : GpuKnobs ρ} {x : ρ × List ρ} {j : ℕ}
    (hsize : g.accessSize x.1 ≠ 0) (hj : j < g.warpSize - 1) (hactive : laneAt g x.2 j ≠ 0)
    (hline : g.lineAddr (g.unit x.1) (laneAt g x.2 j + g.laneOffset) ≠ 0) :
    g.lineAddr (g.unit x.1) (laneAt g x.2 j + g.laneOffset) ∈
      collectedLines g x.1 x.2 (g.warpSize - 1) := by
  have hlane : g.laneLines x.1 (laneAt g x.2 j) =
      g.accessLines x.1 (laneAt g x.2 j + g.laneOffset) := if_pos ⟨hactive, hsize⟩
  refine mem_collectedLines.mpr (.inr ⟨j, hj, ?_, .inl ?_⟩)
  · rw [hlane]
    exact hline
  · rw [hlane]
    rfl

/-- No set of numbers stays the same, up to two neighbours, when it is shifted by two or more. -/
theorem shift_changes {ι : Type} {s : Finset ι} (hs : s.Nonempty) (lo : ι → ℕ) {d : ℕ}
    (hd : 2 ≤ d) {p : ℕ → Prop} (hp : ∀ m n, p m → p n → m ≤ n + 1)
    (hup : ∀ a ∈ s, p (lo a + d) ∨ ∃ b ∈ s, lo a + d ≤ lo b + 1)
    (hdown : ∀ a ∈ s, p (lo a) ∨ ∃ b ∈ s, lo b + d ≤ lo a) : False := by
  obtain ⟨a, ha, hmax⟩ := s.exists_max_image lo hs
  obtain ⟨b, hb, hmin⟩ := s.exists_min_image lo hs
  have hab := hmin a ha
  rcases hup a ha with hpa | ⟨c, hc, hle⟩
  · rcases hdown b hb with hpb | ⟨c, hc, hle⟩
    · have := hp _ _ hpa hpb
      omega
    · have := hmin c hc
      omega
  · have := hmax c hc
    omega

/-- A line at zero begins at its first byte. -/
theorem zero_line {size n i : ℕ} (hpos : 0 < size) (h : 0 = (n + i) / size * size) :
    (n + 0) / size * size = 0 := by
  have hzero : (n + i) / size = 0 := (Nat.mul_eq_zero.mp h.symm).resolve_right (by omega)
  have hlt := (Nat.div_eq_zero_iff.mp hzero).resolve_left (by omega)
  rw [Nat.div_eq_of_lt (by omega), Nat.zero_mul]

/-- The first byte of an access has no offset. -/
theorem lineAddr_first (g : GpuKnobs ρ) (u : LineUnit) (a : Addr) :
    g.lineAddr u a = g.lineAddr u (a + BitVec.ofNat 64 0) :=
  congrArg (g.lineAddr u) (BitVec.add_zero a).symm

/-- Inside the address space the lines of a uop's bytes are those of the exact sums. -/
theorem InSpace.toNat_uop {g : GpuKnobs ρ} {x : ρ × List ρ} {a : Addr} {i : ℕ} (h : InSpace g x)
    (ha : a ∈ activeAddrs g x) (hi : i < g.accessSize x.1) :
    (g.lineAddr (g.unit x.1) (a + g.uopOffset + BitVec.ofNat 64 i)).toNat =
      (a.toNat + g.uopOffset.toNat + i) / (g.lineSize (g.unit x.1)).bytes *
        (g.lineSize (g.unit x.1)).bytes :=
  toNat_relocated g _ (by
    have := h.fits a ha
    omega)

/-- Inside the address space the lines of a lane's bytes are those of the exact sums. -/
theorem InSpace.toNat_lane {g : GpuKnobs ρ} {x : ρ × List ρ} {a : Addr} {i : ℕ} (h : InSpace g x)
    (ha : a ∈ activeAddrs g x) (hi : i < g.accessSize x.1) :
    (g.lineAddr (g.unit x.1) (a + g.laneOffset + BitVec.ofNat 64 i)).toNat =
      (a.toNat + g.laneOffset.toNat + i) / (g.lineSize (g.unit x.1)).bytes *
        (g.lineSize (g.unit x.1)).bytes :=
  toNat_relocated g _ (by
    have := h.fits a ha
    have := uopOffset_eq h.process
    omega)

/-- Line 0 is not collected, so that no lane may touch it. -/
theorem InSpace.seen {g : GpuKnobs ρ} {x : ρ × List ρ} (h : InSpace g x)
    (hsize : g.accessSize x.1 ≠ 0)
    (hsame : ∀ line, line ∈ collectedLines g x.1 x.2 (g.warpSize - 1) ↔ line ∈ touchedLines g x)
    {a : Addr} (ha : a ∈ activeAddrs g x) : g.lineAddr (g.unit x.1) (a + g.uopOffset) ≠ 0 := by
  intro hzero
  have hpos := bytes_pos (g.lineSize (g.unit x.1))
  have htouched : g.lineAddr (g.unit x.1) (a + g.uopOffset) ∈ touchedLines g x :=
    mem_touchedLines.mpr ⟨a, ha, 0, by omega, lineAddr_first g _ _⟩
  rw [hzero, ← hsame] at htouched
  obtain ⟨b, hb, offset, hoff, hseen, i, hi, hline⟩ := seen_of_collected hsize htouched
  refine hseen (BitVec.eq_of_toNat_eq ?_)
  have hline := congrArg BitVec.toNat hline
  rw [lineAddr_first]
  rcases hoff with ⟨-, rfl⟩ | ⟨-, rfl⟩
  · rw [h.toNat_uop hb hi] at hline
    rw [h.toNat_uop hb (by omega)]
    exact zero_line hpos hline
  · rw [h.toNat_lane hb hi] at hline
    rw [h.toNat_lane hb (by omega)]
    exact zero_line hpos hline

/-- A lane of another process than process 0 is seen. -/
theorem InSpace.lane_seen {g : GpuKnobs ρ} {x : ρ × List ρ} (h : InSpace g x)
    (hsize : g.accessSize x.1 ≠ 0) (hid : g.processId ≠ 0) {a : Addr}
    (ha : a ∈ activeAddrs g x) : g.lineAddr (g.unit x.1) (a + g.laneOffset) ≠ 0 := by
  intro hzero
  have hline := h.toNat_lane (i := 0) ha (by omega)
  rw [← lineAddr_first, hzero] at hline
  have hhigh := laneOffset_ge h.process hid
  have hle := bytes_le (g.lineSize (g.unit x.1))
  have hpos := bytes_pos (g.lineSize (g.unit x.1))
  have hone : 1 ≤ (a.toNat + g.laneOffset.toNat + 0) / (g.lineSize (g.unit x.1)).bytes :=
    (Nat.le_div_iff_mul_le hpos).mpr (by omega)
  have := Nat.le_mul_of_pos_left (g.lineSize (g.unit x.1)).bytes hone
  have hline : 0 = _ := hline
  omega

/-- The lanes behind lane 0 are relocated as lane 0 is, or they are not active.  Otherwise their
lines are two lines or more away from where they should be, and lane 0 cannot make up for both
the highest one that is missing and the lowest one that is there. -/
theorem InSpace.space {g : GpuKnobs ρ} {x : ρ × List ρ} (h : InSpace g x)
    (hsize : g.accessSize x.1 ≠ 0)
    (hshort : g.accessSize x.1 ≤ (g.lineSize (g.unit x.1)).bytes)
    (hsame : ∀ line, line ∈ collectedLines g x.1 x.2 (g.warpSize - 1) ↔ line ∈ touchedLines g x) :
    g.laneOffset = g.uopOffset ∨ ∀ j < g.warpSize - 1, laneAt g x.2 j = 0 := by
  by_contra hspace
  push Not at hspace
  obtain ⟨hdiffer, j₀, hj₀, hactive₀⟩ := hspace
  have hoffset := uopOffset_eq h.process
  generalize hq : 0xFFFFFFFF * g.processId * 10 / 2 ^ 32 = q at hoffset
  have hqpos : q ≠ 0 := fun hzero => hdiffer (BitVec.eq_of_toNat_eq (by
    rw [hoffset, hzero, Nat.zero_mul, Nat.zero_add]))
  have hid : g.processId ≠ 0 := fun hzero => hqpos (by
    rw [← hq, hzero]
    rfl)
  have hpos := bytes_pos (g.lineSize (g.unit x.1))
  have hle := bytes_le (g.lineSize (g.unit x.1))
  have hdvd := bytes_dvd (g.lineSize (g.unit x.1)) (show 31 ≤ 32 by omega)
  have huop := fun {a i} => h.toNat_uop (a := a) (i := i)
  have hlow := fun {a i} => h.toNat_lane (a := a) (i := i)
  generalize (g.lineSize (g.unit x.1)).bytes = size at *
  obtain ⟨d, hd⟩ : size ∣ q * 2 ^ 32 := hdvd.mul_left q
  have hd2 : 2 ≤ d := by
    refine Nat.le_of_mul_le_mul_left (c := size) ?_ hpos
    omega
  have hshift : ∀ n, (n + g.uopOffset.toNat + 0) / size =
      (n + g.laneOffset.toNat + 0) / size + d := by
    intro n
    rw [← Nat.add_mul_div_left _ _ hpos, ← hd, hoffset]
    congr 1
    omega
  have hquot : ∀ {m n}, m / size * size = n / size * size → m / size = n / size :=
    fun heq => Nat.eq_of_mul_eq_mul_right hpos heq
  have hnear : ∀ n i, i < g.accessSize x.1 → (n + i) / size ≤ (n + 0) / size + 1 := by
    intro n i hi
    rw [← Nat.add_div_right _ hpos]
    exact Nat.div_le_div_right (by omega)
  have hmono : ∀ n i, (n + 0) / size ≤ (n + i) / size := fun n i =>
    Nat.div_le_div_right (by omega)
  refine shift_changes (s := (Finset.range (g.warpSize - 1)).filter (laneAt g x.2 · ≠ 0))
    ⟨j₀, Finset.mem_filter.mpr ⟨Finset.mem_range.mpr hj₀, hactive₀⟩⟩
    (fun j => ((laneAt g x.2 j).toNat + g.laneOffset.toNat + 0) / size) hd2
    (p := fun n => ∃ i < g.accessSize x.1,
      n = ((g.memAddr x.1).toNat + g.uopOffset.toNat + i) / size) ?_ ?_ ?_
  · rintro m n ⟨i, hi, rfl⟩ ⟨i', -, rfl⟩
    have := hnear ((g.memAddr x.1).toNat + g.uopOffset.toNat) i hi
    have := hmono ((g.memAddr x.1).toNat + g.uopOffset.toNat) i'
    omega
  · intro j hj
    obtain ⟨hrange, hactive⟩ := Finset.mem_filter.mp hj
    have hmem : laneAt g x.2 j ∈ activeAddrs g x :=
      mem_activeAddrs.mpr ⟨hactive, .inr ⟨j, Finset.mem_range.mp hrange, rfl⟩⟩
    have htouched : g.lineAddr (g.unit x.1) (laneAt g x.2 j + g.uopOffset) ∈
        touchedLines g x := mem_touchedLines.mpr ⟨_, hmem, 0, by omega, lineAddr_first g _ _⟩
    rw [← hsame] at htouched
    obtain ⟨b, hb, offset, hoff, -, i, hi, hline⟩ := seen_of_collected hsize htouched
    have hline := congrArg BitVec.toNat hline
    rw [lineAddr_first, huop hmem (by omega)] at hline
    rcases hoff with ⟨rfl, rfl⟩ | ⟨⟨j', hj', rfl⟩, rfl⟩
    · rw [huop hb hi] at hline
      exact Or.inl ⟨i, hi, (hshift _).symm.trans (hquot hline)⟩
    · rw [hlow hb hi] at hline
      refine Or.inr ⟨j', Finset.mem_filter.mpr
        ⟨Finset.mem_range.mpr hj', (mem_activeAddrs.mp hb).1⟩, ?_⟩
      rw [← hshift, hquot hline]
      exact hnear _ i hi
  · intro j hj
    obtain ⟨hrange, hactive⟩ := Finset.mem_filter.mp hj
    have hlt := Finset.mem_range.mp hrange
    have hmem : laneAt g x.2 j ∈ activeAddrs g x :=
      mem_activeAddrs.mpr ⟨hactive, .inr ⟨j, hlt, rfl⟩⟩
    have hcollected := collected_of_seen hsize hlt hactive (h.lane_seen hsize hid hmem)
    rw [hsame] at hcollected
    obtain ⟨a, ha, i, hi, hline⟩ := mem_touchedLines.mp hcollected
    have hline := congrArg BitVec.toNat hline
    rw [lineAddr_first, hlow hmem (by omega), huop ha hi] at hline
    obtain ⟨hne, rfl | ⟨j', hj', rfl⟩⟩ := mem_activeAddrs.mp ha
    · exact Or.inl ⟨i, hi, hquot hline⟩
    · refine Or.inr ⟨j', Finset.mem_filter.mpr ⟨Finset.mem_range.mpr hj', hne⟩, ?_⟩
      rw [← hshift, hquot hline]
      exact hmono _ i

/-- Lanes whose lines are collected exactly are relocated alike and seen. -/
theorem InSpace.coalescable {g : GpuKnobs ρ} {x : ρ × List ρ} (h : InSpace g x)
    (hW : 2 ≤ g.warpSize) (hsize : g.accessSize x.1 ≠ 0)
    (hshort : g.accessSize x.1 ≤ (g.lineSize (g.unit x.1)).bytes)
    (hsame : ∀ line, line ∈ collectedLines g x.1 x.2 (g.warpSize - 1) ↔ line ∈ touchedLines g x)
    (hfew : (touchedLines g x).length ≤ 64) : Coalescable g x :=
  ⟨hW, h.space hsize hshort hsame, fun _ ha => h.seen hsize hsame ha, hfew⟩

/-! ## Runs to a memory instruction -/

/-- A run of one instruction has no other state at the beginning of an instruction in it. -/
theorem getUops_between {g : GpuKnobs ρ} {m n : ℕ} {s t s' : GpuThread ρ}
    (hbom : s.bom = true) (hfetch : s.fetchEnded = false)
    (hm : g.getUops m s = some t) (hpos : 0 < m) (htbom : t.bom = true)
    (htfetch : t.fetchEnded = false) (hn : g.getUops n s = some s')
    (hone : s'.converted.length ≤ s.converted.length + 1) : n ≤ m := by
  by_contra hlt
  obtain ⟨k, rfl⟩ := Nat.exists_eq_add_of_lt (not_le.mp hlt)
  rw [Nat.add_assoc, getUops_add, hm, Option.bind_some] at hn
  obtain ⟨m, rfl⟩ := Nat.exists_eq_add_of_lt hpos
  obtain ⟨s₁, hs₁, hrest₁⟩ := Option.bind_eq_some_iff.mp (Nat.zero_add _ ▸ hm)
  obtain ⟨t₁, ht₁, hrest₂⟩ := Option.bind_eq_some_iff.mp hn
  have hfirst := getUop_count hfetch hs₁
  have hsecond := getUop_count htfetch ht₁
  have hle₁ := getUops_count _ hrest₁
  have hle₂ := getUops_count _ hrest₂
  rw [if_pos hbom] at hfirst
  rw [if_pos htbom] at hsecond
  omega

/-- A run that gets to the end of the fetch does not go on from there. -/
theorem fetching_of_ended {g : GpuKnobs ρ} {m n : ℕ} {s t s' : GpuThread ρ}
    (hm : g.getUops m s = some t) (hn : g.getUops n s = some s') (hle : n ≤ m)
    (hended : s'.fetchEnded = true) : t.fetchEnded = true := by
  obtain ⟨k, rfl⟩ := Nat.exists_eq_add_of_le hle
  rw [getUops_add, hn, Option.bind_some, getUops_of_ended hended] at hm
  cases hm
  exact hended

/-- A run stands at a memory instruction only where the file has one. -/
theorem Before.run {g : GpuKnobs ρ} {groups gs : List (ρ × List ρ)} (hB : 0 < g.bufferSize)
    (hA : 0 < g.addrPerTraceInst) (hmax : groups.length ≤ g.maxInsts)
    (hwf : WellFormed g groups) (hlast : ∀ x ∈ groups.getLast?, g.isMem x.1 = false)
    {m : ℕ} {t : GpuThread ρ} (hbom : t.bom = true) (hfetch : t.fetchEnded = false)
    (hmem : g.isMem t.prev = true) (hne : gs ≠ []) {done : List (ρ × List ρ)} {s : GpuThread ρ}
    {place : Option ℕ} (h : Before g groups s done gs place)
    (hrun : g.getUops m s = some t) : ∃ done' x y rest place',
      Before g groups t done' (x :: y :: rest) place' := by
  induction gs generalizing done s place m with
  | nil => exact absurd rfl hne
  | cons x gs ih =>
      have hprev : s.prev = x.1 := h.prev
      have hcount : ∀ {u : GpuThread ρ}, u.converted.map (·.1) = (done ++ [x]).map (·.1) →
          u.converted.length ≤ s.converted.length + 1 := by
        intro u hu
        have hu := congrArg List.length hu
        have hs := congrArg List.length h.insts
        rw [List.length_map, List.length_map] at hs
        rw [List.length_map, List.length_map, List.length_append, List.length_singleton] at hu
        omega
      have hstops : ∀ {n u}, g.getUops n s = some u → u.fetchEnded = true →
          u.converted.map (·.1) = (done ++ [x]).map (·.1) → 0 < m → False := by
        intro n u hn hended hconv hpos
        have hle := getUops_between h.bom h.fetching hrun hpos hbom hfetch hn (hcount hconv)
        rw [fetching_of_ended hrun hn hle hended] at hfetch
        cases hfetch
      cases gs with
      | nil =>
          have hother : g.isMem x.1 = false := hlast x (by
            rw [h.split]
            simp)
          rcases Nat.eq_zero_or_pos m with rfl | hpos
          · cases hrun
            rw [hprev, hother] at hmem
            cases hmem
          · obtain ⟨n, u, hn, haligned⟩ := h.lastOther hmax hwf hother
            exact (hstops hn haligned.ended (h.split ▸ haligned.insts) hpos).elim
      | cons y rest =>
          rcases Nat.eq_zero_or_pos m with rfl | hpos
          · cases hrun
            exact ⟨_, _, _, _, _, h⟩
          have hnext : ∀ {n u place'}, g.getUops n s = some u →
              Before g groups u (done ++ [x]) (y :: rest) place' → ∃ done' x y rest place',
                Before g groups t done' (x :: y :: rest) place' := by
            intro n u place' hn hu
            have hle :=
              getUops_between h.bom h.fetching hrun hpos hbom hfetch hn (hcount hu.insts)
            obtain ⟨k, rfl⟩ := Nat.exists_eq_add_of_le hle
            rw [getUops_add, hn, Option.bind_some] at hrun
            exact ih (List.cons_ne_nil _ _) hu hrun
          cases hx : g.isMem x.1 with
          | false =>
              rcases h.other hB hmax hwf hx with ⟨-, -, -, n, u, hn, hended, hconv⟩ |
                ⟨-, n, u, hn, hu⟩
              · exact (hstops hn hended hconv hpos).elim
              · exact hnext hn hu
          | true =>
              obtain ⟨k, rfl⟩ := Nat.exists_eq_add_of_lt hpos
              obtain ⟨u, hu, hrest⟩ := Option.bind_eq_some_iff.mp (Nat.zero_add _ ▸ hrun)
              have hassert : ¬ (g.accessSize x.1 = 0 ∨ g.warpSize < 2) := by
                intro hassert
                obtain ⟨sent, hcall⟩ := getUop_mem h.bom h.fetching (by rw [hprev]; exact hx)
                rw [hprev, coalesce_none hassert, hu] at hcall
                cases hcall
              push Not at hassert
              rcases h.mem hB hA hmax hwf hx hassert.2 hassert.1 with
                ⟨-, hnone⟩ | ⟨-, u', hu', hflagged | hbefore⟩
              · rw [hu] at hnone
                cases hnone
              · rw [hu] at hu'
                cases hu'
                -- the next instruction is the last one, and no memory instruction
                rcases Nat.eq_zero_or_pos k with rfl | hk
                · cases hrest
                  rw [hflagged.2.prev, hflagged.2.other] at hmem
                  cases hmem
                · obtain ⟨n, v, hn, haligned⟩ := hflagged.2.finishes
                  have hlen := congrArg List.length haligned.insts
                  have hlen' := congrArg List.length hflagged.2.insts
                  rw [List.length_map, List.length_map, hflagged.2.split, List.length_append,
                    List.length_singleton] at hlen
                  rw [List.length_map, List.length_map] at hlen'
                  have hle := getUops_between hflagged.2.bom hflagged.2.fetching hrest hk hbom
                    hfetch hn (by omega)
                  rw [fetching_of_ended hrest hn hle haligned.ended] at hfetch
                  cases hfetch
              · exact hnext (getUops_one hu') hbefore

/-- The next call makes a memory uop of the instruction whose children are exactly the lines that
its lanes touch. -/
def CoalescesExactly (g : GpuKnobs ρ) (s : GpuThread ρ) (x : ρ × List ρ) : Prop :=
  ∃ s' u, g.getUop s = some s' ∧ s'.memUops = s.memUops ++ [u] ∧
    CoalescedExactly g x (s.tempUopCount + 1) u

/-- The instruction that a run stands at. -/
theorem Before.current {g : GpuKnobs ρ} {groups done gs : List (ρ × List ρ)} {s : GpuThread ρ}
    {place : Option ℕ} {x x' : ρ × List ρ} (h : Before g groups s done (x' :: gs) place)
    (hx : groups[s.converted.length]? = some x) : x' = x := by
  have hlen := congrArg List.length h.insts
  rw [List.length_map, List.length_map] at hlen
  rw [hlen, h.split, List.getElem?_append_right le_rfl, Nat.sub_self] at hx
  exact Option.some.inj hx

/-- In a file whose last instruction is no memory instruction, every memory instruction that the
decoder comes to, with an active lane and an access no longer than a line, is coalesced exactly
if its lanes are relocated alike (the process is process 0, or only lane 0 is active), none of
them starts in line 0, and they touch no more than 64 lines.  For a small process id and lanes
that stay in the address space the converse holds, too. -/
theorem coalescing_exact_iff (g : GpuKnobs ρ) (hB : 0 < g.bufferSize)
    (hA : 0 < g.addrPerTraceInst) (groups : List (ρ × List ρ)) (hwf : WellFormed g groups)
    (hmax : groups.length ≤ g.maxInsts) (hlast : ∀ x ∈ groups.getLast?, g.isMem x.1 = false)
    (junk : ρ) (m : ℕ) (s : GpuThread ρ)
    (hrun : g.getUops m (GpuKnobs.setup (flat groups) junk) = some s) (hbom : s.bom = true)
    (hfetch : s.fetchEnded = false) (hmem : g.isMem s.prev = true) (x : ρ × List ρ)
    (hx : groups[s.converted.length]? = some x) (hsize : 1 ≤ g.accessSize x.1)
    (hshort : g.accessSize x.1 ≤ (g.lineSize (g.unit x.1)).bytes)
    (hactive : ∃ a ∈ laneAddrs g x, a ≠ 0) :
    (Coalescable g x → CoalescesExactly g s x) ∧
      (InSpace g x → CoalescesExactly g s x → Coalescable g x) := by
  have hsize : g.accessSize x.1 ≠ 0 := by omega
  cases groups with
  | nil => cases hx
  | cons z zs =>
      obtain ⟨done, x', y, rest, place, h⟩ := (Before.setup junk).run hB hA hmax hwf hlast hbom
        hfetch hmem (List.cons_ne_nil z zs) hrun
      obtain rfl := h.current hx
      have hprev : s.prev = x'.1 := h.prev
      rw [hprev] at hmem
      refine ⟨fun hgood => ?_, fun hspace ⟨s', u, hcall, hadded, hexact⟩ => ?_⟩
      · obtain ⟨-, sent, t, place', -, -, -, hcall⟩ :=
          h.coalesces hB hA hmax hwf hmem hgood.warp hsize
        obtain ⟨a, ha, hne⟩ := hactive
        have htouched : g.lineAddr (g.unit x'.1) (a + g.uopOffset) ∈ touchedLines g x' :=
          mem_touchedLines.mpr ⟨a, List.mem_filter.mpr ⟨ha, by simpa using hne⟩, 0, by omega,
            lineAddr_first g _ _⟩
        rw [hgood.collectedLines hsize hshort, if_neg (List.ne_nil_of_mem htouched)] at hcall
        exact ⟨_, _, hcall, rfl, coalescedExactly_of_lines _ hgood.few⟩
      · have hW : 2 ≤ g.warpSize := by
          by_contra hone
          obtain ⟨sent, hnone⟩ := getUop_mem h.bom h.fetching (by rw [hprev]; exact hmem)
          rw [hprev, coalesce_none (.inr (by omega)), hcall] at hnone
          cases hnone
        obtain ⟨-, sent, t, place', -, -, -, hmade⟩ := h.coalesces hB hA hmax hwf hmem hW hsize
        rw [hcall] at hmade
        split at hmade
        · cases hmade
        · cases hmade
          obtain rfl := (List.cons.inj (List.append_cancel_left hadded)).1
          have horder := hexact.order
          rw [children_vaddr] at horder
          have hroom := hexact.room
          rw [children_length, horder] at hroom
          exact hspace.coalescable hW hsize hshort (fun line => by rw [horder]) hroom

/-- A load of two lanes of process 0 is coalesced. -/
theorem coalescing_exact_iff_load :
    (Coalescable (plainGpuKnobs 1000) (1, [2]) →
        CoalescesExactly (plainGpuKnobs 1000)
          (GpuKnobs.setup (flat [(1, [2]), (20, [])]) 0) (1, [2])) ∧
      (InSpace (plainGpuKnobs 1000) (1, [2]) →
        CoalescesExactly (plainGpuKnobs 1000)
          (GpuKnobs.setup (flat [(1, [2]), (20, [])]) 0) (1, [2]) →
        Coalescable (plainGpuKnobs 1000) (1, [2])) :=
  coalescing_exact_iff (plainGpuKnobs 1000) (by decide) (by decide) [(1, [2]), (20, [])]
    (by decide) (by decide) (by simp [plainGpuKnobs, GpuKnobs.isMem]) 0 0 _ rfl rfl rfl rfl
    (1, [2]) rfl (by decide) (by decide) ⟨64, by decide, by decide⟩

/-- The same warp as one of the second process. -/
def secondProcessKnobs : GpuKnobs ℕ := { plainGpuKnobs 1000 with processId := 1 }

/-- The load of the second process: lane 1 is relocated to an address below `2 ^ 33`, where the
space of process 0 is. -/
theorem coalescing_splits_process :
    WellFormed secondProcessKnobs [(1, [2]), (20, [])] ∧
      ¬ CoalescesExactly secondProcessKnobs
        (GpuKnobs.setup (flat [(1, [2]), (20, [])]) 0) (1, [2]) := by
  refine ⟨by decide, ?_⟩
  rintro ⟨s', u, hcall, hadded, hexact⟩
  have hchildren : (secondProcessKnobs.getUop (GpuKnobs.setup (flat [(1, [2]), (20, [])]) 0)).map
      (fun s => s.memUops.map fun u => u.children.map (·.vaddr)) =
        some [[0xA00000000, 0x100000040]] := by decide
  rw [hcall, Option.map_some, hadded] at hchildren
  have hlines : u.children.map (·.vaddr) = [0xA00000000, 0x100000040] := by
    simpa [GpuKnobs.setup] using hchildren
  have htouched := (hexact.lines 0xA00000040).mpr ⟨128, by decide, 0, by decide, by decide⟩
  rw [hlines] at htouched
  revert htouched
  decide

end GpuKnobs

end MacSim.Analysis
