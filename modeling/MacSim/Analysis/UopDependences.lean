import MacSim.Computation.DefUse
import MacSim.Analysis.StringTiles

/-!
# The dependences inside an instruction

The uops of an instruction depend on each other through their registers: the loads write the one
temporary register, which the ALU uop or else the store and the branch read, and the store and the
branch read what the ALU uop writes.
-/

set_option autoImplicit false

namespace MacSim.Analysis

open MacSim.Model MacSim.Computation

variable {k : CpuDecodeKnobs} {r : CpuRecord} {n : ℕ} {st : DecodeState} {d : CpuDecoded}

/-! ## What is to hold -/

/-- The part that the uop with number `i` plays. -/
def partOf (d : CpuDecoded) (i : ℕ) : Option UopPart :=
  (d.infoOf i).map (·.part)

/-- The uop with number `i` is an ancestor of the one with number `j`. -/
def DependsOn (d : CpuDecoded) (j i : ℕ) : Prop :=
  Ancestor (fun i => (d.slots i).reads) (fun i => (d.slots i).writes) i j

/-- Every load is an ancestor of the ALU uop, the store and the branch, and the ALU uop is one of
the store and the branch. -/
structure DependencesComplete (d : CpuDecoded) : Prop where
  load : ∀ i < d.dynUopCounter, ∀ j < d.dynUopCounter, ∀ second,
    partOf d i = some (.load second) →
    partOf d j = some .alu ∨ partOf d j = some .store ∨ partOf d j = some .branch →
    DependsOn d j i
  alu : ∀ i < d.dynUopCounter, ∀ j < d.dynUopCounter, partOf d i = some .alu →
    partOf d j = some .store ∨ partOf d j = some .branch → DependsOn d j i

/-! ## When it holds -/

/-- Something that depends on the loads. -/
def UsesLoads (r : CpuRecord) : Prop :=
  r.instHasAluUop = true ∨ r.hasSt = true ∨ r.cfType ≠ 0

/-- Two parts of which one depends on the other. -/
def HasDependence (r : CpuRecord) : Prop :=
  r.numLd ≠ 0 ∧ UsesLoads r ∨ r.instHasAluUop = true ∧ (r.hasSt = true ∨ r.cfType ≠ 0)

/-- The second load overwrites the temporary register, and what the first one wrote is not read
before. -/
def LoadLost (r : CpuRecord) : Prop :=
  r.numLd = 2 ∧ UsesLoads r ∧ ¬ (r.opcode = CpuOpcode.dataxfer ∧
    ∃ reg ∈ r.src.take r.numReadRegs, reg ∈ r.dst.take r.numDestRegs)

/-- The static uops are repeated. -/
def Repeats (k : CpuDecodeKnobs) (r : CpuRecord) : Prop :=
  r.opcode = CpuOpcode.stringop ∧ k.repMovMemSizeMaxNew < r.memReadSize

/-- A string instruction that moves nothing. -/
def MovesNothing (r : CpuRecord) : Prop :=
  r.opcode = CpuOpcode.stringop ∧ r.memReadSize = 0

/-! ## Parts and registers -/

/-- A static uop reads the registers of its part, and maybe a stale one. -/
theorem Expanded.static_reads (h : Expanded k r n st d) {i : ℕ} {p : UopPart}
    (hp : (parts k r)[i]? = some p) : ∃ stale,
      (d.slots i).reads = r.src.take (partNumSrcs r p) ++ extraSrcs r p stale := by
  obtain ⟨st', hstatic, hsame⟩ := h.static
  rw [(hsame i (List.getElem?_eq_some_iff.mp hp).1).reads]
  exact hstatic.reads i p hp

/-- A static uop writes the registers of its part. -/
theorem Expanded.static_writes (h : Expanded k r n st d) {i : ℕ} {p : UopPart}
    (hp : (parts k r)[i]? = some p) :
    (d.slots i).writes = r.dst.take (partNumDests r p) ++ extraDests r p := by
  obtain ⟨st', hstatic, hsame⟩ := h.static
  rw [(hsame i (List.getElem?_eq_some_iff.mp hp).1).writes]
  exact hstatic.writes i p hp

/-- No register of the record is the temporary register. -/
theorem tmp0_not_mem_src (m : ℕ) : trRegTmp0 ∉ r.src.take m := by
  intro h
  exact absurd (r.src_lt _ (List.mem_of_mem_take h)) (by decide)

/-- The temporary register is no destination of the instruction. -/
theorem tmp0_not_mem_dst (m : ℕ) : trRegTmp0 ∉ r.dst.take m := by
  intro h
  exact absurd (r.dst_lt _ (List.mem_of_mem_take h)) (by decide)

/-- Only the loads write the temporary register. -/
theorem Expanded.tmp0_writer (h : Expanded k r n st d) {i : ℕ} {p : UopPart}
    (hp : (parts k r)[i]? = some p) (hwrite : trRegTmp0 ∈ (d.slots i).writes) :
    ∃ second, p = .load second := by
  rw [h.static_writes hp, List.mem_append] at hwrite
  have hextra := hwrite.resolve_left (tmp0_not_mem_dst _)
  cases p with
  | load second => exact ⟨second, rfl⟩
  | alu | store | branch | fence | nop => simp [extraDests] at hextra

/-- A load writes the temporary register when something depends on it. -/
theorem Expanded.load_writes_tmp0 (h : Expanded k r n st d) {i : ℕ} {second : Bool}
    (hp : (parts k r)[i]? = some (.load second)) (htmp : r.tmpRegNeeded = true) :
    trRegTmp0 ∈ (d.slots i).writes := by
  rw [h.static_writes hp]
  simp [extraDests, htmp]

/-- An instruction that uses what it loads needs the temporary register. -/
theorem tmpRegNeeded_of_usesLoads (hlds : r.numLd ≠ 0) (hload : loadMemType r.opcode = .ld)
    (huses : UsesLoads r) : r.tmpRegNeeded = true := by
  have hhas : r.instHasLdUop = true := decide_eq_true ⟨hlds, hload⟩
  unfold CpuRecord.tmpRegNeeded
  rw [hhas, Bool.true_and, Bool.or_eq_true, Bool.or_eq_true, decide_eq_true_iff, or_assoc]
  exact huses

/-! ## The dependences of the static uops -/

/-- What one uop writes last reaches a reader behind it. -/
theorem feeds_of_parts (reg : ℕ) {i j : ℕ} (hlt : i < j) (hj : j < (parts k r).length)
    (hread : reg ∈ (d.slots j).reads) (hwrite : reg ∈ (d.slots i).writes)
    (hbetween : ∀ l p, i < l → l < j → (parts k r)[l]? = some p → reg ∉ (d.slots l).writes) :
    Feeds (fun i => (d.slots i).reads) (fun i => (d.slots i).writes) i j :=
  ⟨hlt, reg, hread, hwrite, fun l hl hl' =>
    hbetween l _ hl hl' (List.getElem?_eq_getElem (by omega))⟩

/-- The store and the branch depend on the ALU uop. -/
theorem Expanded.alu_ancestor (h : Expanded k r n st d) {i j : ℕ} {p : UopPart}
    (hi : (parts k r)[i]? = some .alu) (hj : (parts k r)[j]? = some p)
    (hp : p = .store ∨ p = .branch) : DependsOn d j i := by
  have halu := alu_mem_parts.mp (List.mem_of_getElem? hi)
  have hdests : r.numDestRegs ≠ 0 := by
    simp only [CpuRecord.instHasAluUop, Bool.and_eq_true, decide_eq_true_eq] at halu
    exact halu.1
  obtain ⟨reg, hreg⟩ : ∃ reg, reg ∈ r.dst.take r.numDestRegs := by
    refine List.exists_mem_of_ne_nil _ ?_
    rw [Ne, List.take_eq_nil_iff, not_or]
    exact ⟨hdests, fun hnil => absurd r.dst_length (by rw [hnil]; decide)⟩
  have hlt : i < j := part_lt hi hj (by decide) (by rcases hp with rfl | rfl <;> decide)
  refine Relation.TransGen.single (feeds_of_parts (k := k) (r := r) reg hlt
    (List.getElem?_eq_some_iff.mp hj).1 ?_ ?_ ?_)
  · obtain ⟨stale, hreads⟩ := h.static_reads hj
    rw [hreads]
    rcases hp with rfl | rfl <;> simp [extraSrcs, halu, hreg]
  · rw [h.static_writes hi]
    simp [partNumDests, hreg]
  · intro l q hl hl' hq hwrite
    rw [h.static_writes hq] at hwrite
    cases q with
    | load second =>
      have := part_lt hq hi (by cases second <;> decide) (by cases second <;> decide)
      omega
    | alu =>
      have := part_unique (by decide) hq hi
      omega
    | store | branch | fence | nop => simp [partNumDests, extraDests] at hwrite

/-- A part behind the loads uses what was loaded. -/
theorem usesLoads_of_part {j : ℕ} {p : UopPart} (hj : (parts k r)[j]? = some p)
    (hp : p = .alu ∨ p = .store ∨ p = .branch) : UsesLoads r := by
  have hmem := List.mem_of_getElem? hj
  rcases hp with rfl | rfl | rfl
  · exact Or.inl (alu_mem_parts.mp hmem)
  · exact Or.inr (Or.inl (store_mem_parts.mp hmem))
  · exact Or.inr (Or.inr (branch_mem_parts.mp hmem))

/-- The loads come before the other parts. -/
theorem load_rank (second : Bool) : partRank (.load second) ≠ 0 ∧ partRank (.load second) ≤ 2 := by
  cases second <;> decide

/-- A load is there when the record has one, and a second one when it has two. -/
theorem numLd_of_load {i : ℕ} {second : Bool} (hi : (parts k r)[i]? = some (.load second)) :
    r.numLd ≠ 0 ∧ (second = true → r.numLd = 2) := by
  have hmem := List.mem_of_getElem? hi
  cases second with
  | false => exact ⟨load_false_mem_parts.mp hmem, by simp⟩
  | true =>
    have htwo := load_true_mem_parts.mp hmem
    exact ⟨by omega, fun _ => htwo⟩

/-- What the last load writes into the temporary register is there until the end. -/
theorem Expanded.last_load_feeds (h : Expanded k r n st d) (hload : loadMemType r.opcode = .ld)
    {i j : ℕ} {second : Bool} {p : UopPart} (hi : (parts k r)[i]? = some (.load second))
    (hlast : second = true ∨ r.numLd ≠ 2) (hj : (parts k r)[j]? = some p)
    (hp : p = .alu ∨ p = .store ∨ p = .branch) (hread : trRegTmp0 ∈ (d.slots j).reads) :
    Feeds (fun i => (d.slots i).reads) (fun i => (d.slots i).writes) i j := by
  have hrank := load_rank second
  have hlt : i < j := by
    refine part_lt hi hj hrank.1 ?_
    rcases hp with rfl | rfl | rfl <;> simp only [partRank] at hrank ⊢ <;> omega
  have htmp := tmpRegNeeded_of_usesLoads (numLd_of_load hi).1 hload (usesLoads_of_part hj hp)
  refine feeds_of_parts (k := k) (r := r) trRegTmp0 hlt (List.getElem?_eq_some_iff.mp hj).1 hread
    (h.load_writes_tmp0 hi htmp) ?_
  intro l q hl _ hq hwrite
  obtain ⟨second', rfl⟩ := h.tmp0_writer hq hwrite
  cases second with
  | true =>
    have hle : l ≤ i := part_le hq hi (load_rank second').1 (load_rank second').2
    omega
  | false =>
    cases second' with
    | false =>
      have := part_unique (load_rank false).1 hq hi
      omega
    | true => exact hlast.elim (by simp) fun hne => hne ((numLd_of_load hq).2 rfl)

/-- The ALU uop, the store and the branch depend on the last load. -/
theorem Expanded.last_load_ancestor (h : Expanded k r n st d)
    (hload : loadMemType r.opcode = .ld) {i j : ℕ} {second : Bool} {p : UopPart}
    (hi : (parts k r)[i]? = some (.load second)) (hlast : second = true ∨ r.numLd ≠ 2)
    (hj : (parts k r)[j]? = some p) (hp : p = .alu ∨ p = .store ∨ p = .branch) :
    DependsOn d j i := by
  have htmp := tmpRegNeeded_of_usesLoads (numLd_of_load hi).1 hload (usesLoads_of_part hj hp)
  by_cases halu : r.instHasAluUop = true ∧ p ≠ .alu
  · -- through the ALU uop
    obtain ⟨a, ha⟩ := List.mem_iff_getElem?.mp (alu_mem_parts (k := k).mpr halu.1)
    have hread : trRegTmp0 ∈ (d.slots a).reads := by
      obtain ⟨stale, hreads⟩ := h.static_reads ha
      rw [hreads]
      simp [extraSrcs, htmp]
    have hfirst := h.last_load_feeds hload hi hlast ha (Or.inl rfl) hread
    exact Relation.TransGen.head hfirst (h.alu_ancestor ha hj (hp.resolve_left halu.2))
  · -- directly through the temporary register
    refine Relation.TransGen.single (h.last_load_feeds hload hi hlast hj hp ?_)
    obtain ⟨stale, hreads⟩ := h.static_reads hj
    rw [hreads, List.mem_append]
    right
    rcases hp with rfl | rfl | rfl
    · simp [extraSrcs, htmp]
    · have hno : r.instHasAluUop = false := by simpa using halu
      simp [extraSrcs, htmp, hno]
    · have hno : r.instHasAluUop = false := by simpa using halu
      simp [extraSrcs, htmp, hno]

/-- The first of two loads feeds the second one when that reads what both write. -/
theorem Expanded.first_load_feeds (h : Expanded k r n st d) {i reg : ℕ}
    (hi : (parts k r)[i]? = some (.load false)) (hi' : (parts k r)[i + 1]? = some (.load true))
    (hop : r.opcode = CpuOpcode.dataxfer) (hsrc : reg ∈ r.src.take r.numReadRegs)
    (hdst : reg ∈ r.dst.take r.numDestRegs) : DependsOn d (i + 1) i := by
  refine Relation.TransGen.single (feeds_of_parts (k := k) (r := r) reg (Nat.lt_succ_self i)
    (List.getElem?_eq_some_iff.mp hi').1 ?_ ?_ ?_)
  · obtain ⟨stale, hreads⟩ := h.static_reads hi'
    rw [hreads]
    simp [partNumSrcs, hsrc]
  · rw [h.static_writes hi]
    simp [partNumDests, hop, hdst]
  · intro l p hl hl'
    omega

/-- The parts of all uops, repetition by repetition. -/
theorem Expanded.partOf_eq (h : Expanded k r n st d) {i : ℕ} (hi : i < d.dynUopCounter) :
    partOf d i = (parts k r)[i % (parts k r).length]? := by
  have hlen := (parts_length k r).1
  have hmod := Nat.mod_lt i hlen
  have hq : i / (parts k r).length ≤ n := by
    have hdyn := h.dyn
    rw [Nat.add_comm, ← Nat.succ_mul, Nat.mul_comm] at hdyn
    exact Nat.le_of_lt_succ (Nat.div_lt_of_lt_mul (by omega))
  obtain ⟨info, hinfo, hpart, -⟩ := h.infoOf hq (List.getElem?_eq_getElem hmod)
  rw [Nat.div_add_mod'] at hinfo
  rw [partOf, hinfo, List.getElem?_eq_getElem hmod, Option.map_some, hpart]

/-- Without repetitions the dependences are complete unless a load is lost. -/
theorem Expanded.complete (h : Expanded k r 0 st d)
    (hload : r.numLd ≠ 0 → loadMemType r.opcode = .ld) (hlost : ¬ LoadLost r) :
    DependencesComplete d := by
  have hpart : ∀ i < d.dynUopCounter, partOf d i = (parts k r)[i]? := by
    intro i hi
    have hdyn := h.dyn
    rw [h.partOf_eq hi, Nat.mod_eq_of_lt (by omega)]
  constructor
  · intro i hi j hj second hpi hpj
    rw [hpart i hi] at hpi
    obtain ⟨p, hpj', hp⟩ : ∃ p, (parts k r)[j]? = some p ∧
        (p = .alu ∨ p = .store ∨ p = .branch) := by
      rw [hpart j hj] at hpj
      rcases hpj with hpj | hpj | hpj
      · exact ⟨_, hpj, Or.inl rfl⟩
      · exact ⟨_, hpj, Or.inr (Or.inl rfl)⟩
      · exact ⟨_, hpj, Or.inr (Or.inr rfl)⟩
    have htype := hload (numLd_of_load hpi).1
    by_cases hlast : second = true ∨ r.numLd ≠ 2
    · exact h.last_load_ancestor htype hpi hlast hpj' hp
    · rw [not_or, not_not, Bool.not_eq_true] at hlast
      obtain ⟨rfl, htwo⟩ := hlast
      obtain ⟨hop, reg, hsrc, hdst⟩ : r.opcode = CpuOpcode.dataxfer ∧
          ∃ reg ∈ r.src.take r.numReadRegs, reg ∈ r.dst.take r.numDestRegs := by
        by_contra hnot
        exact hlost ⟨htwo, usesLoads_of_part hpj' hp, hnot⟩
      obtain ⟨i', hfirst, hsecond⟩ := loads_adjacent (k := k) htwo
      obtain rfl := part_unique (load_rank false).1 hpi hfirst
      exact (h.first_load_feeds hpi hsecond hop hsrc hdst).trans
        (h.last_load_ancestor htype hsecond (Or.inl rfl) hpj' hp)
  · intro i hi j hj hpi hpj
    rw [hpart i hi] at hpi
    rw [hpart j hj] at hpj
    rcases hpj with hpj | hpj
    · exact h.alu_ancestor hpi hpj (Or.inl rfl)
    · exact h.alu_ancestor hpi hpj (Or.inr rfl)

/-- A uop that depends on the loads, among the static ones. -/
theorem exists_user (huses : UsesLoads r) : ∃ (j : ℕ) (p : UopPart), (parts k r)[j]? = some p ∧
    (p = .alu ∨ p = .store ∨ p = .branch) := by
  rcases huses with h | h | h
  · obtain ⟨j, hj⟩ := List.mem_iff_getElem?.mp (alu_mem_parts (k := k).mpr h)
    exact ⟨j, _, hj, Or.inl rfl⟩
  · obtain ⟨j, hj⟩ := List.mem_iff_getElem?.mp (store_mem_parts (k := k).mpr h)
    exact ⟨j, _, hj, Or.inr (Or.inl rfl)⟩
  · obtain ⟨j, hj⟩ := List.mem_iff_getElem?.mp (branch_mem_parts (k := k).mpr h)
    exact ⟨j, _, hj, Or.inr (Or.inr rfl)⟩

/-- The part of a uop of a repetition. -/
theorem Expanded.partOf_repeated (h : Expanded k r n st d) {q j : ℕ} (hq : q ≤ n) {p : UopPart}
    (hp : (parts k r)[j]? = some p) : q * (parts k r).length + j < d.dynUopCounter ∧
      partOf d (q * (parts k r).length + j) = some p := by
  have hj := (List.getElem?_eq_some_iff.mp hp).1
  have hlt : q * (parts k r).length + j < d.dynUopCounter := by
    have hle := Nat.mul_le_mul_right (parts k r).length hq
    rw [h.dyn]
    omega
  refine ⟨hlt, ?_⟩
  rw [h.partOf_eq hlt, Nat.mul_add_mod', Nat.mod_eq_of_lt hj, hp]

/-- A load whose register is overwritten and not read before has no dependents. -/
theorem Expanded.not_complete_of_lost (h : Expanded k r n st d) (hlost : LoadLost r) :
    ¬ DependencesComplete d := by
  obtain ⟨htwo, huses, hunread⟩ := hlost
  intro hcomplete
  obtain ⟨i, hi, hi'⟩ := loads_adjacent (k := k) htwo
  obtain ⟨j, p, hj, hp⟩ := exists_user (k := k) huses
  obtain ⟨hlt, hpart⟩ := h.partOf_repeated (Nat.zero_le n) hi
  obtain ⟨hlt', hpart'⟩ := h.partOf_repeated (Nat.zero_le n) hj
  rw [Nat.zero_mul, Nat.zero_add] at hlt hpart hlt' hpart'
  have hdep := hcomplete.load i hlt j hlt' false hpart (by
    rw [hpart']
    rcases hp with rfl | rfl | rfl <;> simp)
  have hover : (d.slots i).writes = (d.slots (i + 1)).writes := by
    rw [h.static_writes hi, h.static_writes hi']
    rfl
  obtain ⟨-, reg, hread, hwrite, -⟩ := Ancestor.feeds_succ hdep (fun reg hreg => hover ▸ hreg)
  obtain ⟨stale, hreads⟩ := h.static_reads hi'
  beta_reduce at hread hwrite
  rw [hreads, List.mem_append] at hread
  have hsrc : reg ∈ r.src.take r.numReadRegs := hread.resolve_right (by simp [extraSrcs])
  rw [h.static_writes hi, List.mem_append] at hwrite
  rcases hwrite with hdst | htmp
  · by_cases hop : r.opcode = CpuOpcode.dataxfer
    · exact hunread ⟨hop, reg, hsrc, by simpa [partNumDests, hop] using hdst⟩
    · simp [partNumDests, hop] at hdst
  · simp only [extraDests] at htmp
    split_ifs at htmp with hneeded
    · rw [List.mem_singleton.mp htmp] at hsrc
      exact tmp0_not_mem_src _ hsrc
    · simp at htmp

/-- The uops of a repetition are no ancestors of those before them. -/
theorem Expanded.not_complete_of_repeated (h : Expanded k r n st d) (hn : n ≠ 0)
    (hdep : HasDependence r) : ¬ DependencesComplete d := by
  intro hcomplete
  have hback : ∀ {i j : ℕ} {q : UopPart}, (parts k r)[j]? = some q →
      ¬ DependsOn d j ((parts k r).length + i) := by
    intro i j q hj hdep
    have hj' := (List.getElem?_eq_some_iff.mp hj).1
    have := Ancestor.lt hdep
    omega
  have hpart : ∀ {j : ℕ} {p : UopPart}, (parts k r)[j]? = some p →
      (j < d.dynUopCounter ∧ partOf d j = some p) ∧
        (parts k r).length + j < d.dynUopCounter ∧
          partOf d ((parts k r).length + j) = some p := by
    intro j p hp
    have hzero := h.partOf_repeated (Nat.zero_le n) hp
    have hone := h.partOf_repeated (Nat.one_le_iff_ne_zero.mpr hn) hp
    rw [Nat.zero_mul, Nat.zero_add] at hzero
    rw [Nat.one_mul] at hone
    exact ⟨hzero, hone⟩
  rcases hdep with ⟨hlds, huses⟩ | ⟨halu, husers⟩
  · obtain ⟨i, hi⟩ := List.mem_iff_getElem?.mp (load_false_mem_parts (k := k).mpr hlds)
    obtain ⟨j, p, hj, hp⟩ := exists_user (k := k) huses
    refine hback hj (hcomplete.load _ (hpart hi).2.1 j (hpart hj).1.1 false (hpart hi).2.2 ?_)
    rw [(hpart hj).1.2]
    rcases hp with rfl | rfl | rfl <;> simp
  · obtain ⟨i, hi⟩ := List.mem_iff_getElem?.mp (alu_mem_parts (k := k).mpr halu)
    rcases husers with hst | hbr
    · obtain ⟨j, hj⟩ := List.mem_iff_getElem?.mp (store_mem_parts (k := k).mpr hst)
      exact hback hj (hcomplete.alu _ (hpart hi).2.1 j (hpart hj).1.1 (hpart hi).2.2
        (Or.inl (hpart hj).1.2))
    · obtain ⟨j, hj⟩ := List.mem_iff_getElem?.mp (branch_mem_parts (k := k).mpr hbr)
      exact hback hj (hcomplete.alu _ (hpart hi).2.1 j (hpart hj).1.1 (hpart hi).2.2
        (Or.inr (hpart hj).1.2))

/-! ## The result -/

/-- An instruction of no part is decoded as one that does nothing. -/
theorem repeatNone_nop {num : ℕ} (hnum : 0 < num) (st : DecodeState) :
    ∃ st', repeatNone k r num st = some st' ∧ (st'.slots 0).info = some (r.key 0) ∧
      ∃ info, st'.table (r.key 0) = some info ∧ info.part = .nop := by
  have hfits : (0 : ℕ) ≤ maxDests ∧ (0 : ℕ) ≤ maxSrcs := ⟨Nat.zero_le _, Nat.zero_le _⟩
  unfold repeatNone convertTUopToInfo
  simp only [if_pos hfits, Option.map_some]
  refine ⟨_, rfl, ?_, _, Function.update_self _ _ _, rfl⟩
  simp only [Function.update_self, Function.update_of_ne (Nat.ne_of_lt hnum)]

/-- A new string instruction that moves nothing becomes one NOP. -/
theorem convert_empty (hempty : MovesNothing r) (hnew : NewInst r st) (hfits : RegistersFit r) :
    ∃ d, convertPinuopToTUop k r st = some d ∧ d.dynUopCounter = 1 ∧ partOf d 0 = some .nop := by
  obtain ⟨hop, hsize⟩ := hempty
  obtain ⟨st₁, hdecode, -⟩ := decodeStatic_new (k := k) hnew hfits
  obtain ⟨st₂, hnone, hkey, info, hentry, hpart⟩ :=
    repeatNone_nop (k := k) (r := r) (parts_length k r).1 st₁
  refine ⟨finish r 1 1 (countUops 1 st₂), ?_, rfl, ?_⟩
  · unfold convertPinuopToTUop repeatMove
    rw [hdecode]
    simp only [Option.bind_eq_bind, Option.bind_some, if_pos hop, if_pos hsize, hnone,
      Option.map_some]
    rfl
  · have hslot : ((finish r 1 1 (countUops 1 st₂)).slots 0).info = some (r.key 0) := by
      rw [(finish_slots r 1 1 _ 0).info, (countUops_slots 1 st₂ 0).1.info, hkey]
    obtain ⟨numUop, htable⟩ := finish_table r 1 1 (countUops 1 st₂) hentry
    unfold partOf CpuDecoded.infoOf
    rw [hslot, Option.bind_some, htable, Option.map_some, hpart]

/-- An instruction is repeated exactly as often as its size and the room for uops allow. -/
theorem repeats_iff (hop : r.opcode = CpuOpcode.stringop)
    (hturn : ∀ q < n, q * k.repMovMemSizeMaxNew < r.memReadSize - k.repMovMemSizeMaxNew ∧
      (parts k r).length + q * (parts k r).length < maxPup)
    (hstop : r.memReadSize - k.repMovMemSizeMaxNew ≤ n * k.repMovMemSizeMaxNew ∨
      maxPup ≤ (parts k r).length + n * (parts k r).length) : n ≠ 0 ↔ Repeats k r := by
  have hlen := (parts_length k r).2
  constructor
  · intro hn
    have := (hturn 0 (Nat.pos_of_ne_zero hn)).1
    exact ⟨hop, by omega⟩
  · rintro ⟨-, hlarge⟩ rfl
    simp only [maxPup] at hstop
    omega

/-- The condition under which the dependences are complete: the instruction moves nothing, or no
load is lost and no dependence is repeated. -/
def DependencesHold (k : CpuDecodeKnobs) (r : CpuRecord) : Prop :=
  MovesNothing r ∨ ¬ LoadLost r ∧ ¬ (Repeats k r ∧ HasDependence r)

/-- An instruction without dependences within itself has them all. -/
theorem Expanded.complete_of_no_dependence (h : Expanded k r n st d) (hno : ¬ HasDependence r) :
    DependencesComplete d := by
  have hmem : ∀ {i : ℕ} {p : UopPart}, i < d.dynUopCounter → partOf d i = some p →
      p ∈ parts k r := by
    intro i p hi hp
    rw [h.partOf_eq hi] at hp
    exact List.mem_of_getElem? hp
  constructor
  · intro i hi j hj second hpi hpj
    obtain ⟨i', hi'⟩ := List.mem_iff_getElem?.mp (hmem hi hpi)
    refine absurd (Or.inl ⟨(numLd_of_load hi').1, ?_⟩) hno
    rcases hpj with hpj | hpj | hpj
    · exact Or.inl (alu_mem_parts.mp (hmem hj hpj))
    · exact Or.inr (Or.inl (store_mem_parts.mp (hmem hj hpj)))
    · exact Or.inr (Or.inr (branch_mem_parts.mp (hmem hj hpj)))
  · intro i hi j hj hpi hpj
    refine absurd (Or.inr ⟨alu_mem_parts.mp (hmem hi hpi), ?_⟩) hno
    rcases hpj with hpj | hpj
    · exact Or.inl (store_mem_parts.mp (hmem hj hpj))
    · exact Or.inr (branch_mem_parts.mp (hmem hj hpj))

/-- The dependences of a new instruction whose loads are no prefetches are complete exactly when
it moves nothing, or no load is lost and no dependence is repeated. -/
theorem dependences_complete_iff (k : CpuDecodeKnobs) (r : CpuRecord) (st : DecodeState)
    (hload : r.numLd ≠ 0 → loadMemType r.opcode = .ld) (hnew : NewInst r st)
    (hfits : RegistersFit r) :
    ∃ d, convertPinuopToTUop k r st = some d ∧
      (DependencesComplete d ↔ DependencesHold k r) := by
  by_cases hop : r.opcode = CpuOpcode.stringop
  · by_cases hsize : r.memReadSize = 0
    · obtain ⟨d, hd, hdyn, hpart⟩ := convert_empty (k := k) ⟨hop, hsize⟩ hnew hfits
      refine ⟨d, hd, fun _ => Or.inl ⟨hop, hsize⟩, fun _ => ?_⟩
      have hzero : ∀ i < d.dynUopCounter, partOf d i = some .nop := by
        intro i hi
        rw [show i = 0 by omega, hpart]
      constructor
      · intro i hi j hj second hpi
        simp [hzero i hi] at hpi
      · intro i hi j hj hpi
        simp [hzero i hi] at hpi
    · obtain ⟨n, d, hd, hexp, hturn, hstop⟩ := convert_string (k := k) hop hsize hnew hfits
      have hrepeats := repeats_iff hop hturn hstop
      refine ⟨d, hd, ?_, ?_⟩
      · intro hcomplete
        refine Or.inr ⟨fun hlost => hexp.not_complete_of_lost hlost hcomplete, ?_⟩
        rintro ⟨hrep, hdep⟩
        exact hexp.not_complete_of_repeated (hrepeats.mpr hrep) hdep hcomplete
      · rintro (⟨-, hzero⟩ | ⟨hlost, hnot⟩)
        · exact absurd hzero hsize
        · by_cases hn : n = 0
          · subst hn
            exact hexp.complete hload hlost
          · exact hexp.complete_of_no_dependence fun hdep => hnot ⟨hrepeats.mp hn, hdep⟩
  · obtain ⟨d, hd, hexp⟩ := convert_other (k := k) hop hnew hfits
    refine ⟨d, hd, ?_, ?_⟩
    · intro hcomplete
      exact Or.inr ⟨fun hlost => hexp.not_complete_of_lost hlost hcomplete, fun h => hop h.1.1⟩
    · rintro (⟨hop', -⟩ | ⟨hlost, -⟩)
      · exact absurd hop' hop
      · exact hexp.complete hload hlost

/-! ## An addition with memory operands -/

/-- An addition of the category `XED_CATEGORY_BINARY` with one destination register. -/
def addLoads (numLd : ℕ) : CpuRecord :=
  { stringMove 4 with
    numDestRegs := 1
    opcode := 13
    hasSt := false
    numLd := numLd }

/-- With two loads the ALU uop does not depend on the first one. -/
theorem addLoads_two_not_complete :
    ¬ ∃ d, convertPinuopToTUop plainDecode (addLoads 2) DecodeState.new = some d ∧
      DependencesComplete d := by
  rintro ⟨d, hd, hcomplete⟩
  have hfits : RegistersFit (addLoads 2) := by
    unfold RegistersFit
    decide
  have hnew : NewInst (addLoads 2) DecodeState.new := fun _ _ => rfl
  obtain ⟨d', hd', hexp⟩ := convert_other (k := plainDecode) (by decide) hnew hfits
  rw [hd] at hd'
  obtain rfl := Option.some.inj hd'
  exact hexp.not_complete_of_lost ⟨rfl, Or.inl rfl, fun h => absurd h.1 (by decide)⟩ hcomplete

/-- With one load the ALU uop depends on it. -/
theorem addLoads_one_complete :
    ∃ d, convertPinuopToTUop plainDecode (addLoads 1) DecodeState.new = some d ∧
      DependencesComplete d := by
  obtain ⟨d, hd, hiff⟩ := dependences_complete_iff plainDecode (addLoads 1) DecodeState.new
    (fun _ => by decide) (fun _ _ => rfl) (by unfold RegistersFit; decide)
  refine ⟨d, hd, hiff.mpr (Or.inr ⟨fun h => ?_, fun h => ?_⟩)⟩
  · exact absurd h.1 (by decide)
  · exact absurd h.1.1 (by decide)

end MacSim.Analysis
