import MacSim.Model.CpuDecoder

/-!
# The static uops of an instruction

Which uops the CPU decoder creates depends on seven yes-or-no questions about the record, and
what a uop reads, writes and accesses depends on the record and on the part it plays.  The slots
that the decoder leaves behind are described by these parts alone.
-/

set_option autoImplicit false

namespace MacSim.Analysis

open MacSim.Model

/-! ## The parts of an instruction -/

/-- One more part, if there is one. -/
def partsWith (ps : List UopPart) (c : Bool) (p : UopPart) : List UopPart :=
  ps ++ if c then [p] else []

/-- The parts of an instruction without the fences around it. -/
def partsOf (ld ld2 alu st br fence : Bool) : List UopPart :=
  let own := partsWith [] ld (.load false)
  let own := partsWith own ld2 (.load true)
  let own := partsWith own alu .alu
  let own := partsWith own st .store
  let own := partsWith own br .branch
  let own := partsWith own (own.isEmpty && fence) .fence
  partsWith own own.isEmpty .nop

/-- The parts of the instruction of a record. -/
def ownParts (r : CpuRecord) : List UopPart :=
  partsOf (decide (r.numLd ≠ 0)) (decide (r.numLd = 2)) r.instHasAluUop r.hasSt
    (decide (r.cfType ≠ 0)) (decide (r.opcode = CpuOpcode.misc ∧ r.ldVaddr2 = 1))

/-- The parts with the fences around the instruction. -/
def parts (k : CpuDecodeKnobs) (r : CpuRecord) : List UopPart :=
  (if k.fenced r && k.enableHmcDoubleFence then [.fence] else []) ++ ownParts r ++
    (if k.fenced r then [.fence] else [])

/-- The position of a part in its instruction; fences have none. -/
def partRank : UopPart → ℕ
  | .load false => 1
  | .load true => 2
  | .alu => 3
  | .store => 4
  | .branch => 5
  | .nop => 6
  | .fence => 0

/-- Every part occurs once, and the parts are in order. -/
theorem partsOf_sorted : ∀ ld ld2 alu st br fence : Bool,
    (partsOf ld ld2 alu st br fence).Pairwise
      fun p q => partRank q = 0 ∨ partRank p < partRank q := by
  decide +kernel

/-- There are one to five parts. -/
theorem partsOf_length : ∀ ld ld2 alu st br fence : Bool,
    0 < (partsOf ld ld2 alu st br fence).length ∧
      (partsOf ld ld2 alu st br fence).length ≤ 5 := by
  decide +kernel

/-- The parts come in their order. -/
theorem parts_sorted (k : CpuDecodeKnobs) (r : CpuRecord) :
    (parts k r).Pairwise fun p q => partRank q = 0 ∨ partRank p < partRank q := by
  have hown := partsOf_sorted (decide (r.numLd ≠ 0)) (decide (r.numLd = 2)) r.instHasAluUop r.hasSt
    (decide (r.cfType ≠ 0)) (decide (r.opcode = CpuOpcode.misc ∧ r.ldVaddr2 = 1))
  have hfences : ∀ c : Bool, ∀ q ∈ (if c then [UopPart.fence] else []), partRank q = 0 := by
    intro c q hq
    cases c with
    | false => simp at hq
    | true =>
      rw [List.mem_singleton.mp hq]
      rfl
  have halone : ∀ c : Bool, (if c then [UopPart.fence] else []).Pairwise
      fun p q => partRank q = 0 ∨ partRank p < partRank q := by
    intro c
    cases c <;> simp
  unfold parts
  refine List.pairwise_append.mpr ⟨List.pairwise_append.mpr ⟨halone _, hown, ?_⟩, halone _, ?_⟩
  · intro p hp q _
    rw [hfences _ p hp]
    exact Nat.eq_zero_or_pos (partRank q)
  · intro p _ q hq
    exact Or.inl (hfences _ q hq)

/-- There are one to seven parts, with the fences. -/
theorem parts_length (k : CpuDecodeKnobs) (r : CpuRecord) :
    0 < (parts k r).length ∧ (parts k r).length < 8 := by
  have hown := partsOf_length (decide (r.numLd ≠ 0)) (decide (r.numLd = 2)) r.instHasAluUop r.hasSt
    (decide (r.cfType ≠ 0)) (decide (r.opcode = CpuOpcode.misc ∧ r.ldVaddr2 = 1))
  unfold parts ownParts
  split <;> split <;> simp only [List.length_append, List.length_cons, List.length_nil] <;> omega

/-- Each kind of part occurs when it is asked for. -/
theorem partsOf_mem : ∀ ld ld2 alu st br fence : Bool,
    ((.load false ∈ partsOf ld ld2 alu st br fence) ↔ ld = true) ∧
      ((.load true ∈ partsOf ld ld2 alu st br fence) ↔ ld2 = true) ∧
      ((.alu ∈ partsOf ld ld2 alu st br fence) ↔ alu = true) ∧
      ((.store ∈ partsOf ld ld2 alu st br fence) ↔ st = true) ∧
      ((.branch ∈ partsOf ld ld2 alu st br fence) ↔ br = true) := by
  decide +kernel

/-- The parts are an instruction's own ones and its fences. -/
theorem mem_parts {k : CpuDecodeKnobs} {r : CpuRecord} {p : UopPart} :
    p ∈ parts k r ↔ p ∈ ownParts r ∨ p = .fence ∧ k.fenced r = true := by
  cases hfenced : k.fenced r <;> cases hdouble : k.enableHmcDoubleFence <;>
    simp [parts, hfenced, hdouble, or_comm]

/-- An instruction's own parts, kind by kind. -/
theorem mem_ownParts (r : CpuRecord) :
    (.load false ∈ ownParts r ↔ r.numLd ≠ 0) ∧ (.load true ∈ ownParts r ↔ r.numLd = 2) ∧
      (.alu ∈ ownParts r ↔ r.instHasAluUop = true) ∧ (.store ∈ ownParts r ↔ r.hasSt = true) ∧
      (.branch ∈ ownParts r ↔ r.cfType ≠ 0) := by
  have hmem := partsOf_mem (decide (r.numLd ≠ 0)) (decide (r.numLd = 2)) r.instHasAluUop r.hasSt
    (decide (r.cfType ≠ 0)) (decide (r.opcode = CpuOpcode.misc ∧ r.ldVaddr2 = 1))
  rw [decide_eq_true_iff, decide_eq_true_iff, decide_eq_true_iff] at hmem
  exact hmem

variable {k : CpuDecodeKnobs} {r : CpuRecord}

/-- There is a first load when the record has loads. -/
theorem load_false_mem_parts : .load false ∈ parts k r ↔ r.numLd ≠ 0 := by
  simpa [mem_parts] using (mem_ownParts r).1

/-- There is a second load when the record has two. -/
theorem load_true_mem_parts : .load true ∈ parts k r ↔ r.numLd = 2 := by
  simpa [mem_parts] using (mem_ownParts r).2.1

/-- There is an ALU uop when the opcode has one. -/
theorem alu_mem_parts : .alu ∈ parts k r ↔ r.instHasAluUop = true := by
  simpa [mem_parts] using (mem_ownParts r).2.2.1

/-- There is a store when the record has one. -/
theorem store_mem_parts : .store ∈ parts k r ↔ r.hasSt = true := by
  simpa [mem_parts] using (mem_ownParts r).2.2.2.1

/-- There is a branch when the record has one. -/
theorem branch_mem_parts : .branch ∈ parts k r ↔ r.cfType ≠ 0 := by
  simpa [mem_parts] using (mem_ownParts r).2.2.2.2

/-! ## Where the parts are -/

/-- Parts of a lower rank come first. -/
theorem part_le {p q : UopPart} {i j : ℕ} (hi : (parts k r)[i]? = some p)
    (hj : (parts k r)[j]? = some q) (hp : partRank p ≠ 0) (hle : partRank p ≤ partRank q) :
    i ≤ j := by
  have hsorted := List.pairwise_iff_getElem.mp (parts_sorted k r)
  obtain ⟨hi', hip⟩ := List.getElem?_eq_some_iff.mp hi
  obtain ⟨hj', hjq⟩ := List.getElem?_eq_some_iff.mp hj
  by_contra hlt
  have h := hsorted j i hj' hi' (by omega)
  rw [hip, hjq] at h
  omega

/-- Every part but a fence is there once. -/
theorem part_unique {p : UopPart} {i j : ℕ} (hp : partRank p ≠ 0)
    (hi : (parts k r)[i]? = some p) (hj : (parts k r)[j]? = some p) : i = j :=
  Nat.le_antisymm (part_le hi hj hp (Nat.le_refl _)) (part_le hj hi hp (Nat.le_refl _))

/-- Parts of a strictly lower rank come strictly before. -/
theorem part_lt {p q : UopPart} {i j : ℕ} (hi : (parts k r)[i]? = some p)
    (hj : (parts k r)[j]? = some q) (hp : partRank p ≠ 0) (hlt : partRank p < partRank q) :
    i < j := by
  refine Nat.lt_of_le_of_ne (part_le hi hj hp hlt.le) ?_
  rintro rfl
  obtain rfl := Option.some.inj (hi.symm.trans hj)
  exact absurd hlt (Nat.lt_irrefl _)

/-- Two loads stand side by side. -/
theorem loads_adjacent (h : r.numLd = 2) :
    ∃ i, (parts k r)[i]? = some (.load false) ∧ (parts k r)[i + 1]? = some (.load true) := by
  have hown : ∀ alu st br fence : Bool,
      (partsOf true true alu st br fence)[0]? = some (.load false) ∧
        (partsOf true true alu st br fence)[1]? = some (.load true) := by
    decide
  have hloads : (ownParts r)[0]? = some (.load false) ∧ (ownParts r)[1]? = some (.load true) := by
    have htwo := hown r.instHasAluUop r.hasSt (decide (r.cfType ≠ 0))
      (decide (r.opcode = CpuOpcode.misc ∧ r.ldVaddr2 = 1))
    unfold ownParts
    rw [h]
    exact htwo
  have hlen := (List.getElem?_eq_some_iff.mp hloads.2).1
  refine ⟨(if k.fenced r && k.enableHmcDoubleFence then [UopPart.fence] else []).length, ?_, ?_⟩
  · unfold parts
    rw [List.append_assoc, List.getElem?_append_right (Nat.le_refl _), Nat.sub_self,
      List.getElem?_append_left (by omega)]
    exact hloads.1
  · unfold parts
    rw [List.append_assoc, List.getElem?_append_right (Nat.le_add_right _ 1), Nat.add_sub_cancel_left,
      List.getElem?_append_left hlen]
    exact hloads.2

/-! ## Uops as they are created -/

/-- The type of the access. -/
def partMemType (r : CpuRecord) : UopPart → MemType
  | .load _ => loadMemType r.opcode
  | .store => .st
  | _ => .notMem

/-- The type of the branch. -/
def partCfType (r : CpuRecord) : UopPart → CfType
  | .branch => CfType.ofPin r.cfType
  | _ => .notCf

/-- How many registers of the record the uop reads. -/
def partNumSrcs (r : CpuRecord) : UopPart → ℕ
  | .fence | .nop => 0
  | _ => r.numReadRegs

/-- How many registers of the record the uop writes. -/
def partNumDests (r : CpuRecord) : UopPart → ℕ
  | .load _ => if r.opcode = CpuOpcode.dataxfer then r.numDestRegs else 0
  | .alu => r.numDestRegs
  | _ => 0

/-- Whether the access is the second load. -/
def partSecond : UopPart → Bool
  | .load second => second
  | _ => false

/-- The fields that the creation of a uop sets, from the part that it plays. -/
structure CreatedAs (r : CpuRecord) (p : UopPart) (u : CpuUop) : Prop where
  part : u.part = p
  memType : u.memType = partMemType r p
  cfType : u.cfType = partCfType r p
  numSrcRegs : u.numSrcRegs = partNumSrcs r p
  numDestRegs : u.numDestRegs = partNumDests r p
  pin2ndMem : u.pin2ndMem = partSecond p
  aluUop : p ≠ .fence → p ≠ .nop → u.aluUop = decide (p = .alu)

/-- A load is created as one. -/
theorem created_load (r : CpuRecord) (second : Bool) (u : CpuUop) :
    CreatedAs r (.load second) (createLoad r second u) :=
  ⟨rfl, rfl, rfl, rfl, rfl, rfl, fun _ _ => rfl⟩

/-- An ALU uop is created as one. -/
theorem created_alu (k : CpuDecodeKnobs) (r : CpuRecord) (u : CpuUop) :
    CreatedAs r .alu (createAlu k r u) :=
  ⟨rfl, rfl, rfl, rfl, rfl, rfl, fun _ _ => rfl⟩

/-- A store is created as one. -/
theorem created_store (r : CpuRecord) (u : CpuUop) : CreatedAs r .store (createStore r u) :=
  ⟨rfl, rfl, rfl, rfl, rfl, rfl, fun _ _ => rfl⟩

/-- A branch is created as one. -/
theorem created_branch (r : CpuRecord) (u : CpuUop) : CreatedAs r .branch (createBranch r u) :=
  ⟨rfl, rfl, rfl, rfl, rfl, rfl, fun _ _ => rfl⟩

/-- A fence is created as one. -/
theorem created_fence (r : CpuRecord) (eom : Bool) (u : CpuUop) :
    CreatedAs r .fence (createFence r eom u) :=
  ⟨rfl, rfl, rfl, rfl, rfl, rfl, fun h _ => absurd rfl h⟩

/-- A NOP is created as one. -/
theorem created_nop (r : CpuRecord) (u : CpuUop) : CreatedAs r .nop (createNop r u) :=
  ⟨rfl, rfl, rfl, rfl, rfl, rfl, fun _ h => absurd rfl h⟩

/-! ## The array while uops are created -/

/-- The uops of the array are related to the parts of a list, one by one. -/
structure Lists (C : UopPart → CpuUop → Prop) (ps : List UopPart) (a : UopArray) : Prop where
  num : a.num = ps.length
  uop : ∀ i p, ps[i]? = some p → C p (a.slots i)

variable {C : UopPart → CpuUop → Prop} {ps : List UopPart} {a : UopArray} {p : UopPart}
  {f : CpuUop → CpuUop}

/-- A uop that is pushed is the part at the end of the list. -/
theorem Lists.push (h : Lists C ps a) (hf : ∀ u, C p (f u)) : Lists C (ps ++ [p]) (a.push f) where
  num := by simp [UopArray.push, h.num]
  uop := by
    intro i q hq
    rcases lt_trichotomy i ps.length with hi | hi | hi
    · rw [List.getElem?_append_left hi] at hq
      have hne : i ≠ a.num := by
        rw [h.num]
        omega
      simp only [UopArray.push, Function.update_of_ne hne]
      exact h.uop i q hq
    · subst hi
      simp only [List.getElem?_concat_length, Option.some.injEq] at hq
      subst hq
      simp only [UopArray.push, h.num, Function.update_self]
      exact hf _
    · rw [List.getElem?_eq_none (by simp; omega)] at hq
      simp at hq

/-- A uop that is pushed under a condition is a part under the same one. -/
theorem Lists.pushIf (h : Lists C ps a) (hf : ∀ u, C p (f u)) {c : Prop} [Decidable c]
    {c' : Bool} (hc : c ↔ c' = true) :
    Lists C (partsWith ps c' p) (if c then a.push f else a) := by
  unfold partsWith
  by_cases h' : c' = true
  · rw [if_pos h', if_pos (hc.mpr h')]
    exact h.push hf
  · rw [if_neg h', if_neg fun hc' => h' (hc.mp hc'), List.append_nil]
    exact h

/-- No uop was created exactly when there is no part. -/
theorem Lists.num_eq_zero (h : Lists C ps a) : a.num = 0 ↔ ps.isEmpty = true := by
  rw [h.num, List.length_eq_zero_iff, List.isEmpty_iff]

/-- A uop that is pushed in front is the part at the front of the list. -/
theorem Lists.pushFront (h : Lists C ps a) (hf : ∀ u, C p (f u)) :
    Lists C (p :: ps) (a.pushFront f) where
  num := by simp [UopArray.pushFront, h.num]
  uop := by
    intro i q hq
    cases i with
    | zero =>
      rw [List.getElem?_cons_zero, Option.some.injEq] at hq
      subst hq
      exact hf _
    | succ i =>
      rw [List.getElem?_cons_succ] at hq
      have hi : i < ps.length := (List.getElem?_eq_some_iff.mp hq).1
      have hle : i + 1 ≤ a.num := by
        rw [h.num]
        omega
      simp only [UopArray.pushFront, Nat.succ_ne_zero, if_false, if_pos hle,
        Nat.add_sub_cancel]
      exact h.uop i q hq

/-- The relation may be about anything but the end-of-macro flag. -/
theorem Lists.clearLast (h : Lists C ps a)
    (hC : ∀ p u, C p u → C p { u with eom := false }) : Lists C ps a.clearLast where
  num := h.num
  uop := by
    intro i q hq
    by_cases hi : i = a.num - 1
    · subst hi
      simp only [UopArray.clearLast, Function.update_self]
      exact hC q _ (h.uop _ q hq)
    · simp only [UopArray.clearLast, Function.update_of_ne hi]
      exact h.uop i q hq

/-- The relation holds of the uops of the instruction itself when it holds of every uop as it is
created. -/
theorem createOwn_lists {C : UopPart → CpuUop → Prop} (k : CpuDecodeKnobs) (r : CpuRecord)
    (slots : ℕ → CpuUop) (hload : ∀ second u, C (.load second) (createLoad r second u))
    (halu : ∀ u, C .alu (createAlu k r u)) (hstore : ∀ u, C .store (createStore r u))
    (hbranch : ∀ u, C .branch (createBranch r u)) (hfence : ∀ u, C .fence (createFence r true u))
    (hnop : ∀ u, C .nop (createNop r u)) : Lists C (ownParts r) (createOwn k r slots) := by
  have hnil : Lists C [] ⟨Function.update slots 0 { slots 0 with
      repUopNum := 0, opcode := r.opcode }, 0⟩ := ⟨rfl, fun i p hp => by simp at hp⟩
  have hld := hnil.pushIf (hload false) (decide_eq_true_iff (p := r.numLd ≠ 0)).symm
  have hld2 := hld.pushIf (hload true) (decide_eq_true_iff (p := r.numLd = 2)).symm
  have halu := hld2.pushIf halu (Iff.refl (r.instHasAluUop = true))
  have hst := halu.pushIf hstore (Iff.refl (r.hasSt = true))
  have hbr := hst.pushIf hbranch (decide_eq_true_iff (p := r.cfType ≠ 0)).symm
  have hfe := hbr.pushIf hfence ((and_congr hbr.num_eq_zero
    (decide_eq_true_iff (p := r.opcode = CpuOpcode.misc ∧ r.ldVaddr2 = 1)).symm).trans
      Bool.and_eq_true_iff.symm)
  exact hfe.pushIf hnop hfe.num_eq_zero

/-- The static uops and the parts of the instruction. -/
theorem createUops_lists (k : CpuDecodeKnobs) (r : CpuRecord) (slots : ℕ → CpuUop) :
    Lists (CreatedAs r) (parts k r) (createUops k r slots) := by
  have hown := createOwn_lists k r slots (created_load r) (created_alu k r) (created_store r)
    (created_branch r) (created_fence r true) (created_nop r)
  have hclear : ∀ p u, CreatedAs r p u → CreatedAs r p { u with eom := false } := fun p u h =>
    ⟨h.part, h.memType, h.cfType, h.numSrcRegs, h.numDestRegs, h.pin2ndMem, h.aluUop⟩
  unfold createUops parts
  by_cases hfenced : k.fenced r = true
  · by_cases hdouble : k.enableHmcDoubleFence = true
    · simp only [hfenced, hdouble, Bool.and_self, if_true, List.singleton_append]
      exact ((hown.pushFront (created_fence r false)).clearLast hclear).push (created_fence r true)
    · simp only [hfenced, hdouble, Bool.and_false, if_true]
      exact (hown.clearLast hclear).push (created_fence r true)
  · rw [Bool.not_eq_true] at hfenced
    simpa only [hfenced, Bool.false_and, Bool.false_eq_true, if_false, List.nil_append,
      List.append_nil] using hown

/-! ## The end of the instruction -/

/-- Only the last uop may have the end-of-macro flag. -/
def EomLast (a : UopArray) : Prop :=
  ∀ i, i + 1 < a.num → (a.slots i).eom = false

/-- Without the mark of the last uop no uop is marked. -/
theorem EomLast.clearLast (h : EomLast a) : ∀ i < a.num, (a.clearLast.slots i).eom = false := by
  intro i hi
  by_cases hlast : i = a.num - 1
  · subst hlast
    simp [UopArray.clearLast]
  · simp only [UopArray.clearLast, Function.update_of_ne hlast]
    exact h i (by omega)

/-- A uop that is pushed in front leaves the mark at the last one. -/
theorem EomLast.pushFront (h : EomLast a) (hf : ∀ u, (f u).eom = false) :
    EomLast (a.pushFront f) := by
  intro i hi
  simp only [UopArray.pushFront] at hi ⊢
  by_cases hzero : i = 0
  · rw [if_pos hzero]
    exact hf _
  · rw [if_neg hzero, if_pos (by omega)]
    exact h (i - 1) (by omega)

/-- A uop that is pushed at the end may be marked. -/
theorem eomLast_push (h : ∀ i < a.num, (a.slots i).eom = false) : EomLast (a.push f) := by
  intro i hi
  simp only [UopArray.push] at hi ⊢
  rw [Function.update_of_ne (by omega)]
  exact h i (by omega)

/-- A fence or a NOP is the only uop of its instruction. -/
theorem partsOf_dropLast : ∀ ld ld2 alu st br fence : Bool,
    ∀ p ∈ (partsOf ld ld2 alu st br fence).dropLast, p ≠ .fence ∧ p ≠ .nop := by
  decide +kernel

/-- Of an instruction's own uops only the last one is marked. -/
theorem createOwn_eomLast (k : CpuDecodeKnobs) (r : CpuRecord) (slots : ℕ → CpuUop) :
    EomLast (createOwn k r slots) := by
  have hlists : Lists (fun p u => p ≠ .fence ∧ p ≠ .nop → u.eom = false) (ownParts r)
      (createOwn k r slots) :=
    createOwn_lists k r slots (fun second u _ => rfl) (fun u _ => rfl) (fun u _ => rfl)
      (fun u _ => rfl) (fun u h => absurd rfl h.1) (fun u h => absurd rfl h.2)
  intro i hi
  rw [hlists.num] at hi
  have hi' : i < (ownParts r).length := by omega
  refine hlists.uop i _ (List.getElem?_eq_getElem hi') ?_
  have hmem : (ownParts r)[i] ∈ (ownParts r).dropLast := by
    rw [← List.getElem_dropLast (by simp; omega)]
    exact List.getElem_mem _
  exact partsOf_dropLast _ _ _ _ _ _ _ hmem

/-- Of all uops of an instruction only the last one is marked. -/
theorem createUops_eomLast (k : CpuDecodeKnobs) (r : CpuRecord) (slots : ℕ → CpuUop) :
    EomLast (createUops k r slots) := by
  have hown := createOwn_eomLast k r slots
  unfold createUops
  by_cases hfenced : k.fenced r = true
  · by_cases hdouble : k.enableHmcDoubleFence = true
    · simp only [hfenced, hdouble, if_true]
      exact eomLast_push (hown.pushFront fun u => rfl).clearLast
    · simp only [hfenced, hdouble, if_true]
      exact eomLast_push hown.clearLast
  · simp only [hfenced]
    exact hown

/-! ## The rest of the array -/

/-- The slots behind the uops are as they were. -/
def Untouched (slots : ℕ → CpuUop) (a : UopArray) : Prop :=
  ∀ i, a.num ≤ i → 0 < i → a.slots i = slots i

variable {slots : ℕ → CpuUop}

/-- A push touches the places behind the array no more than before. -/
theorem Untouched.push (h : Untouched slots a) : Untouched slots (a.push f) := by
  intro i hi hpos
  simp only [UopArray.push] at hi ⊢
  rw [Function.update_of_ne (by omega)]
  exact h i (by omega) hpos

/-- A push under a condition touches the places behind the array no more than before. -/
theorem Untouched.pushIf (h : Untouched slots a) (c : Prop) [Decidable c] :
    Untouched slots (if c then a.push f else a) := by
  split
  · exact h.push
  · exact h

/-- A push in front touches the places behind the array no more than before. -/
theorem Untouched.pushFront (h : Untouched slots a) : Untouched slots (a.pushFront f) := by
  intro i hi hpos
  simp only [UopArray.pushFront] at hi ⊢
  rw [if_neg (by omega), if_neg (by omega)]
  exact h i (by omega) hpos

/-- Clearing the mark touches the places behind the array no more than before. -/
theorem Untouched.clearLast (h : Untouched slots a) : Untouched slots a.clearLast := by
  intro i hi hpos
  simp only [UopArray.clearLast] at hi ⊢
  rw [Function.update_of_ne (by omega)]
  exact h i hi hpos

/-- The places behind the created uops hold what they held. -/
theorem createUops_untouched (k : CpuDecodeKnobs) (r : CpuRecord) (slots : ℕ → CpuUop) :
    Untouched slots (createUops k r slots) := by
  have hfirst : Untouched slots ⟨Function.update slots 0 { slots 0 with
      repUopNum := 0, opcode := r.opcode }, 0⟩ := fun i _ hpos =>
    Function.update_of_ne (by omega) _ _
  have hown : Untouched slots (createOwn k r slots) :=
    ((((((hfirst.pushIf _).pushIf _).pushIf _).pushIf _).pushIf _).pushIf _).pushIf _
  unfold createUops
  by_cases hfenced : k.fenced r = true
  · by_cases hdouble : k.enableHmcDoubleFence = true
    · simp only [hfenced, hdouble, if_true]
      exact hown.pushFront.clearLast.push
    · simp only [hfenced, hdouble, if_true]
      exact hown.clearLast.push
  · simp only [hfenced]
    exact hown

end MacSim.Analysis
