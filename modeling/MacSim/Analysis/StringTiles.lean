import Mathlib.Data.BitVec
import MacSim.Computation.Tiling
import MacSim.Analysis.RepeatMoves

/-!
# The accesses of a string instruction

The loads from each address and the stores of a string instruction cover its bytes in chunks of
four, as long as the array is long enough.  The end-of-macro flag of the static uops is left when
they are repeated.
-/

set_option autoImplicit false

namespace MacSim.Analysis

open MacSim.Model MacSim.Computation

variable {k : CpuDecodeKnobs} {r : CpuRecord} {n : ℕ} {st : DecodeState} {d : CpuDecoded}

/-! ## What is to hold -/

/-- The address and the size of each uop with an entry that meets `sel`, in order. -/
def accesses (sel : InstInfo → Bool) (d : CpuDecoded) : List (Addr × ℕ) :=
  ((List.range d.dynUopCounter).filter fun i => (d.infoOf i).any sel).map fun i =>
    ((d.slots i).va, (d.slots i).memSize)

/-- The entry of a load from the first or from the second address. -/
def isLoadFrom (second : Bool) (info : InstInfo) : Bool :=
  decide (info.memType = .ld ∧ info.secondMem = second)

/-- The entry of a store. -/
def isStoreInfo (info : InstInfo) : Bool :=
  decide (info.memType = .st)

/-- The uops fit the array, the accesses cover the bytes of the instruction in chunks, and only
the last uop ends the instruction. -/
structure RepeatTiled (r : CpuRecord) (d : CpuDecoded) : Prop where
  bounded : d.dynUopCounter ≤ maxPup
  load : r.numLd ≠ 0 → Tiles r.ldVaddr1 r.memReadSize (accesses (isLoadFrom false) d)
  load2 : r.numLd = 2 → Tiles r.ldVaddr2 r.memReadSize (accesses (isLoadFrom true) d)
  store : r.hasSt = true → Tiles r.stVaddr r.memReadSize (accesses isStoreInfo d)
  eom : ∀ i < d.dynUopCounter, (d.slots i).eom = true ↔ i + 1 = d.dynUopCounter

/-! ## The uops of a part -/

/-- Every slot of an expansion has the entry of its part. -/
theorem Expanded.slot_info (h : Expanded k r n st d) {q j : ℕ} (hq : q ≤ n) {p : UopPart}
    (hp : (parts k r)[j]? = some p) :
    (d.slots (q * (parts k r).length + j)).info = some (r.key j) := by
  cases q with
  | zero =>
    obtain ⟨st', hstatic, hsame⟩ := h.static
    rw [Nat.zero_mul, Nat.zero_add, (hsame j (List.getElem?_eq_some_iff.mp hp).1).info]
    exact hstatic.info j p hp
  | succ q =>
    obtain ⟨info, -, -, -, -, hsame⟩ := h.repeated q (by omega) j p hp
    rw [Nat.succ_mul, Nat.add_comm (q * _), hsame.info]
    rfl

/-- The entries, repetition by repetition. -/
theorem Expanded.infoOf (h : Expanded k r n st d) {q j : ℕ} (hq : q ≤ n) {p : UopPart}
    (hp : (parts k r)[j]? = some p) : ∃ info, d.infoOf (q * (parts k r).length + j) = some info ∧
      info.part = p ∧ info.memType = partMemType r p ∧ info.secondMem = partSecond p := by
  obtain ⟨info, hinfo, hfields⟩ := h.entry j p hp
  refine ⟨info, ?_, hfields⟩
  rw [CpuDecoded.infoOf, h.slot_info hq hp]
  exact hinfo

/-! ## The accesses, repetition by repetition -/

section Tiles

variable (hop : r.opcode = CpuOpcode.stringop) (hamp : k.memSizeAmp = 1)

include hamp in
/-- Without an amplifier a repeated move is of four bytes. -/
theorem repMovMemSizeMaxNew_eq : k.repMovMemSizeMaxNew = 4 := by
  simp [CpuDecodeKnobs.repMovMemSizeMaxNew, hamp, repMovMemSizeMax]

include hamp in
/-- Without an amplifier nothing is amplified. -/
theorem ampVal_eq : k.ampVal r = 1 := by
  simp [CpuDecodeKnobs.ampVal, hamp]

include hamp in
/-- Without a direction the repetitions go upwards by four. -/
theorem repOffset_eq (hdir : r.repDir = false) (counter : ℕ) :
    repOffset k r counter = (4 * counter : ℕ) := by
  unfold repOffset
  rw [hdir, repMovMemSizeMaxNew_eq hamp]
  rfl

include hamp in
/-- A load reads the next four bytes in every repetition. -/
theorem Expanded.load (h : Expanded k r n st d) (hdir : r.repDir = false) {q j : ℕ} (hq : q ≤ n)
    {second : Bool} (hp : (parts k r)[j]? = some (.load second)) :
    (d.slots (q * (parts k r).length + j)).va = loadVaddr r second + (4 * q : ℕ) ∧
      (d.slots (q * (parts k r).length + j)).memSize = min (r.memReadSize - 4 * q) 4 := by
  cases q with
  | zero =>
    obtain ⟨st', hstatic, hsame⟩ := h.static
    have hj := hsame j (List.getElem?_eq_some_iff.mp hp).1
    obtain ⟨hva, hsize⟩ := hstatic.load j second hp
    rw [Nat.zero_mul, Nat.zero_add, hj.va, hj.memSize, hva, hsize, ampVal_eq hamp,
      repMovMemSizeMaxNew_eq hamp]
    simp
  | succ q =>
    obtain ⟨info, -, hmem, hsecond, hcf, hsame⟩ := h.repeated q (by omega) j _ hp
    have hva := (convertDynUop_load (k := k) (r := r) (hcf (loadMemType_ne_notMem r.opcode)) hmem
      (repOffset k r (1 + q)) (st.slots ((parts k r).length + q * (parts k r).length + j))).1
    rw [Nat.succ_mul, Nat.add_comm (q * _), hsame.va, hsame.memSize]
    refine ⟨hva.trans ?_, ?_⟩
    · rw [repOffset_eq hamp hdir, ampVal_eq hamp, hsecond, Nat.add_comm 1 q]
      exact BitVec.mul_one _
    · simp only [repeatedSlot, repMovMemSizeMaxNew_eq hamp]
      omega

include hamp in
/-- A store writes the next four bytes in every repetition. -/
theorem Expanded.store (h : Expanded k r n st d) (hdir : r.repDir = false)
    (hsizes : r.memWriteSize = r.memReadSize) {q j : ℕ} (hq : q ≤ n)
    (hp : (parts k r)[j]? = some .store) :
    (d.slots (q * (parts k r).length + j)).va = r.stVaddr + (4 * q : ℕ) ∧
      (d.slots (q * (parts k r).length + j)).memSize = min (r.memReadSize - 4 * q) 4 := by
  cases q with
  | zero =>
    obtain ⟨st', hstatic, hsame⟩ := h.static
    have hj := hsame j (List.getElem?_eq_some_iff.mp hp).1
    obtain ⟨hva, hsize⟩ := hstatic.store j hp
    rw [Nat.zero_mul, Nat.zero_add, hj.va, hj.memSize, hva, hsize, ampVal_eq hamp,
      repMovMemSizeMaxNew_eq hamp, hsizes]
    simp
  | succ q =>
    obtain ⟨info, -, hmem, -, hcf, hsame⟩ := h.repeated q (by omega) j _ hp
    have hva := (convertDynUop_store (k := k) (r := r) (hcf (by simp [partMemType])) hmem
      (repOffset k r (1 + q)) (st.slots ((parts k r).length + q * (parts k r).length + j))).1
    rw [Nat.succ_mul, Nat.add_comm (q * _), hsame.va, hsame.memSize]
    refine ⟨hva.trans ?_, ?_⟩
    · rw [repOffset_eq hamp hdir, ampVal_eq hamp, Nat.add_comm 1 q]
      exact BitVec.mul_one _
    · simp only [repeatedSlot, repMovMemSizeMaxNew_eq hamp]
      omega

/-- The accesses of one part, from those of every repetition. -/
theorem Expanded.accesses_eq (h : Expanded k r n st d) {sel : InstInfo → Bool} {j₀ : ℕ}
    {p₀ : UopPart} (hp₀ : (parts k r)[j₀]? = some p₀) (hrank : partRank p₀ ≠ 0)
    (hsel : ∀ p info, info.memType = partMemType r p → info.secondMem = partSecond p →
      sel info = decide (p = p₀)) {a : Addr} {size : ℕ}
    (haccess : ∀ q ≤ n, (d.slots (q * (parts k r).length + j₀)).va = a + (4 * q : ℕ) ∧
      (d.slots (q * (parts k r).length + j₀)).memSize = min (size - 4 * q) 4) :
    accesses sel d =
      (List.range (n + 1)).map fun q => (a + (4 * q : ℕ), min (size - 4 * q) 4) := by
  have hlen := (parts_length k r).1
  have hdyn : d.dynUopCounter = (n + 1) * (parts k r).length := by
    rw [h.dyn, Nat.succ_mul, Nat.add_comm]
  have hj₀ := (List.getElem?_eq_some_iff.mp hp₀).1
  have hfilter : (List.range ((n + 1) * (parts k r).length)).filter
      (fun i => (d.infoOf i).any sel) =
        (List.range ((n + 1) * (parts k r).length)).filter
          fun i => i % (parts k r).length = j₀ := by
    refine List.filter_congr fun i hi => ?_
    have hq : i / (parts k r).length ≤ n := by
      have := Nat.div_lt_of_lt_mul (by rw [Nat.mul_comm]; exact List.mem_range.mp hi)
      omega
    obtain ⟨p, hp⟩ : ∃ p, (parts k r)[i % (parts k r).length]? = some p :=
      ⟨_, List.getElem?_eq_getElem (Nat.mod_lt i hlen)⟩
    obtain ⟨info, hinfo, -, hmem, hsecond⟩ := h.infoOf hq hp
    rw [Nat.div_add_mod'] at hinfo
    rw [hinfo, Option.any_some, hsel _ info hmem hsecond, decide_eq_decide]
    constructor
    · intro heq
      subst heq
      exact part_unique hrank hp hp₀
    · intro heq
      rw [heq, hp₀] at hp
      exact (Option.some.inj hp).symm
  unfold accesses
  rw [hdyn, hfilter, range_filter_mod hj₀, List.map_map]
  refine List.map_congr_left fun q hq => ?_
  obtain ⟨hva, hsize⟩ := haccess q (by simpa [Nat.lt_succ_iff] using hq)
  rw [Function.comp_apply, hva, hsize]

include hop in
/-- The entry of a part loads exactly when the part is that load. -/
theorem isLoadFrom_eq (second : Bool) (p : UopPart) (info : InstInfo)
    (hmem : info.memType = partMemType r p) (hsecond : info.secondMem = partSecond p) :
    isLoadFrom second info = decide (p = .load second) := by
  have hload : loadMemType CpuOpcode.stringop = .ld := by decide
  unfold isLoadFrom
  rw [hmem, hsecond, decide_eq_decide]
  cases p <;> simp [partMemType, partSecond, hop, hload]

include hop in
/-- The entry of a part stores exactly when the part is the store. -/
theorem isStoreInfo_eq (p : UopPart) (info : InstInfo) (hmem : info.memType = partMemType r p) :
    isStoreInfo info = decide (p = .store) := by
  have hload : loadMemType CpuOpcode.stringop = .ld := by decide
  unfold isStoreInfo
  rw [hmem, decide_eq_decide]
  cases p <;> simp [partMemType, hop, hload]

include hop hamp in
/-- The accesses cover the bytes when the repetitions go on to the end. -/
theorem Expanded.tiles (h : Expanded k r n st d) (hdir : r.repDir = false)
    (hsizes : r.memWriteSize = r.memReadSize) (hcover : r.memReadSize ≤ 4 * (n + 1))
    (hneed : ∀ q < n + 1, 4 * q < r.memReadSize) :
    (r.numLd ≠ 0 → Tiles r.ldVaddr1 r.memReadSize (accesses (isLoadFrom false) d)) ∧
      (r.numLd = 2 → Tiles r.ldVaddr2 r.memReadSize (accesses (isLoadFrom true) d)) ∧
      (r.hasSt = true → Tiles r.stVaddr r.memReadSize (accesses isStoreInfo d)) := by
  refine ⟨?_, ?_, ?_⟩
  · intro hld
    obtain ⟨j, hj⟩ := List.mem_iff_getElem?.mp (load_false_mem_parts (k := k).mpr hld)
    rw [h.accesses_eq hj (by decide) (isLoadFrom_eq hop false)
      fun q hq => h.load hamp hdir hq hj]
    exact tiles_chunks r.ldVaddr1 hcover hneed
  · intro hld
    obtain ⟨j, hj⟩ := List.mem_iff_getElem?.mp (load_true_mem_parts (k := k).mpr hld)
    rw [h.accesses_eq hj (by decide) (isLoadFrom_eq hop true)
      fun q hq => h.load hamp hdir hq hj]
    exact tiles_chunks r.ldVaddr2 hcover hneed
  · intro hst
    obtain ⟨j, hj⟩ := List.mem_iff_getElem?.mp (store_mem_parts (k := k).mpr hst)
    rw [h.accesses_eq hj (by decide) (fun p info hmem _ => isStoreInfo_eq hop p info hmem)
      fun q hq => h.store hamp hdir hsizes hq hj]
    exact tiles_chunks r.stVaddr hcover hneed

end Tiles

/-! ## Which string instructions are decoded well -/

/-- A string instruction that is decoded for the first time and moves forward. -/
structure FirstMove (k : CpuDecodeKnobs) (r : CpuRecord) (st : DecodeState) : Prop where
  opcode : r.opcode = CpuOpcode.stringop
  amp : k.memSizeAmp = 1
  forward : r.repDir = false
  moves : r.memReadSize ≠ 0
  sizes : r.memWriteSize = r.memReadSize
  isNew : NewInst r st
  fits : RegistersFit r

/-- More than four bytes take a repetition, which leaves the flag of the last static uop. -/
theorem FirstMove.eom_twice (h : FirstMove k r st) (hlarge : 4 < r.memReadSize) :
    ∃ d, convertPinuopToTUop k r st = some d ∧ ¬ RepeatTiled r d := by
  obtain ⟨n, d, hd, hexp, -, hstop⟩ := convert_string (k := k) h.opcode h.moves h.isNew h.fits
  refine ⟨d, hd, fun htiled => ?_⟩
  have hlen := parts_length k r
  rw [repMovMemSizeMaxNew_eq h.amp] at hstop
  have hn : n ≠ 0 := by
    rintro rfl
    simp only [maxPup] at hstop
    omega
  have hrep : (parts k r).length ≤ n * (parts k r).length :=
    Nat.le_mul_of_pos_left _ (Nat.pos_of_ne_zero hn)
  have hdyn := hexp.dyn
  have hlast := (hexp.eom ((parts k r).length - 1) (by omega)).mpr (Or.inl (by omega))
  have hend := (htiled.eom ((parts k r).length - 1) (by omega)).mp hlast
  omega

/-- The uops stay inside the array exactly when there is room for as many repetitions as the bytes
need. -/
theorem FirstMove.bounded_iff (h : FirstMove k r st) :
    ∃ d, convertPinuopToTUop k r st = some d ∧
      (d.dynUopCounter ≤ maxPup ↔ (r.memReadSize + 3) / 4 * (parts k r).length ≤ maxPup) := by
  obtain ⟨n, d, hd, hexp, hturn, hstop⟩ := convert_string (k := k) h.opcode h.moves h.isNew h.fits
  refine ⟨d, hd, ?_⟩
  obtain ⟨hlen, hlen'⟩ := parts_length k r
  have hsize := r.memReadSize_lt
  have hpos := Nat.pos_of_ne_zero h.moves
  have hlast : n ≠ 0 → 4 * n < r.memReadSize := by
    intro hn
    have := (hturn (n - 1) (by omega)).1
    rw [repMovMemSizeMaxNew_eq h.amp] at this
    omega
  rw [repMovMemSizeMaxNew_eq h.amp] at hstop
  rw [hexp.dyn]
  simp only [maxPup] at hstop ⊢
  generalize (parts k r).length = num at *
  interval_cases num <;> omega

/-- With up to four static uops the array is long enough, and the accesses cover the bytes. -/
theorem FirstMove.covers (h : FirstMove k r st) (hfew : (parts k r).length ≤ 4) :
    ∃ d, convertPinuopToTUop k r st = some d ∧ d.dynUopCounter ≤ maxPup ∧
      (r.numLd ≠ 0 → Tiles r.ldVaddr1 r.memReadSize (accesses (isLoadFrom false) d)) ∧
      (r.numLd = 2 → Tiles r.ldVaddr2 r.memReadSize (accesses (isLoadFrom true) d)) ∧
      (r.hasSt = true → Tiles r.stVaddr r.memReadSize (accesses isStoreInfo d)) := by
  obtain ⟨n, d, hd, hexp, hturn, hstop⟩ := convert_string (k := k) h.opcode h.moves h.isNew h.fits
  have hlen := (parts_length k r).1
  have hsize := r.memReadSize_lt
  have hpos := Nat.pos_of_ne_zero h.moves
  rw [repMovMemSizeMaxNew_eq h.amp] at hturn hstop
  have hcount : n ≤ 63 := by
    by_contra hn
    have := hturn 63 (by omega)
    omega
  have hrep : n * (parts k r).length ≤ n * 4 := Nat.mul_le_mul_left n hfew
  have hall : n * (parts k r).length ≤ 63 * (parts k r).length := Nat.mul_le_mul_right _ hcount
  refine ⟨d, hd, ?_, hexp.tiles h.opcode h.amp h.forward h.sizes ?_ ?_⟩
  · rw [hexp.dyn]
    simp only [maxPup]
    omega
  · simp only [maxPup] at hstop
    omega
  · intro q hq
    cases q with
    | zero => omega
    | succ q =>
      have := (hturn q (by omega)).1
      omega

/-- A string instruction is decoded into uops that fit the array, cover its bytes and end with the
only end-of-macro flag exactly when no repetition is needed. -/
theorem repeat_tiled_iff (k : CpuDecodeKnobs) (r : CpuRecord) (st : DecodeState)
    (h : FirstMove k r st) :
    ∃ d, convertPinuopToTUop k r st = some d ∧ (RepeatTiled r d ↔ r.memReadSize ≤ 4) := by
  by_cases hlarge : 4 < r.memReadSize
  · obtain ⟨d, hd, hnot⟩ := h.eom_twice hlarge
    exact ⟨d, hd, fun htiled => absurd htiled hnot, fun hsmall => absurd hlarge (by omega)⟩
  · obtain ⟨n, d, hd, hexp, hturn, -⟩ := convert_string (k := k) h.opcode h.moves h.isNew h.fits
    have hlen := parts_length k r
    have hpos := Nat.pos_of_ne_zero h.moves
    rw [repMovMemSizeMaxNew_eq h.amp] at hturn
    have hn : n = 0 := by
      by_contra hn
      have := hturn 0 (Nat.pos_of_ne_zero hn)
      omega
    subst hn
    have hdyn : d.dynUopCounter = (parts k r).length := by simpa using hexp.dyn
    obtain ⟨hload, hload2, hstore⟩ := hexp.tiles h.opcode h.amp h.forward h.sizes (by omega)
      (fun q hq => by omega)
    refine ⟨d, hd, fun _ => by omega, fun _ => ⟨?_, hload, hload2, hstore, ?_⟩⟩
    · rw [hdyn, maxPup]
      omega
    · intro i hi
      rw [hexp.eom i hi, hdyn, or_self]

/-! ## A move of a few bytes -/

/-- No fences, and opcode tables that keep the opcode. -/
def plainDecode : CpuDecodeKnobs where
  intUopTable := .tabled
  fpUopTable := .tabled
  enableHmcFence := false
  enableHmcDoubleFence := false
  hmcFenceInfo := []
  memSizeAmp := 1

/-- A string move from address 256 to address 512. -/
def stringMove (size : Fin 256) : CpuRecord where
  numReadRegs := 2
  numDestRegs := 0
  src := [1, 2, 0, 0, 0, 0, 0, 0, 0]
  dst := [0, 0, 0, 0, 0, 0]
  cfType := 0
  hasImmediate := false
  opcode := CpuOpcode.stringop
  hasSt := true
  isFp := false
  writeFlg := false
  numLd := 1
  size := 2
  ldVaddr1 := 256
  ldVaddr2 := 0
  stVaddr := 512
  instructionAddr := 64
  branchTarget := 0
  memReadSize := size
  memWriteSize := size
  repDir := false
  actuallyTaken := false
  instructionNextAddr := 66
  src_length := rfl
  dst_length := rfl
  src_lt := by decide
  dst_lt := by decide
  memReadSize_lt := size.isLt
  memWriteSize_lt := size.isLt

/-- A string move whose size is not zero and whose registers fit is a first move. -/
theorem stringMove_first {size : Fin 256} (hsize : (size : ℕ) ≠ 0)
    (hfits : RegistersFit (stringMove size)) :
    FirstMove plainDecode (stringMove size) DecodeState.new :=
  ⟨rfl, rfl, rfl, hsize, rfl, fun _ _ => rfl, hfits⟩

/-- Eight bytes end the instruction twice. -/
theorem stringMove_eight_not_tiled :
    ¬ ∃ d, convertPinuopToTUop plainDecode (stringMove 8) DecodeState.new = some d ∧
      RepeatTiled (stringMove 8) d := by
  rintro ⟨d, hd, htiled⟩
  have hfirst : FirstMove plainDecode (stringMove 8) DecodeState.new :=
    stringMove_first (by decide) (by unfold RegistersFit; decide)
  obtain ⟨d', hd', hnot⟩ := hfirst.eom_twice (by decide)
  rw [hd] at hd'
  obtain rfl := Option.some.inj hd'
  exact hnot htiled

/-- Three bytes are moved at once. -/
theorem stringMove_three_tiled :
    ∃ d, convertPinuopToTUop plainDecode (stringMove 3) DecodeState.new = some d ∧
      RepeatTiled (stringMove 3) d := by
  obtain ⟨d, hd, hiff⟩ := repeat_tiled_iff plainDecode (stringMove 3) DecodeState.new
    (stringMove_first (by decide) (by unfold RegistersFit; decide))
  exact ⟨d, hd, hiff.mpr (by decide)⟩

end MacSim.Analysis
