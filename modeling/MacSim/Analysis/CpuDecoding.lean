import MacSim.Computation.Partial
import MacSim.Analysis.CpuUops

/-!
# Decoding a new instruction

The static uops of an instruction that is not in the hash table: what each of them reads, writes
and accesses, and the entry that it leaves in the table.
-/

set_option autoImplicit false

namespace MacSim.Analysis

open MacSim.Model MacSim.Computation

variable {k : CpuDecodeKnobs} {r : CpuRecord} {p : UopPart} {u : CpuUop} {st : DecodeState}

/-! ## Registers -/

/-- The registers that a part reads besides those of the record; `stale` is the flag that a fence
or a NOP finds in its slot. -/
def extraSrcs (r : CpuRecord) (p : UopPart) (stale : Bool) : List ℕ :=
  match p with
  | .load _ => []
  | .alu => if r.tmpRegNeeded then [trRegTmp0] else []
  | .store | .branch =>
    if r.tmpRegNeeded && !r.instHasAluUop then [trRegTmp0]
    else if r.instHasAluUop then r.dst.take r.numDestRegs else []
  | .fence | .nop => if stale && r.tmpRegNeeded then [trRegTmp0] else []

/-- The registers that a part writes besides those of the record. -/
def extraDests (r : CpuRecord) (p : UopPart) : List ℕ :=
  match p with
  | .load _ => if r.tmpRegNeeded then [trRegTmp0] else []
  | _ => []

/-- The register lists of every uop fit the arrays. -/
def RegistersFit (r : CpuRecord) : Prop :=
  ∀ p ∈ ownParts r, partNumSrcs r p + (extraSrcs r p false).length ≤ maxSrcs ∧
    partNumDests r p + (extraDests r p).length ≤ maxDests

/-- A branch of the trace is a branch. -/
theorem ofPin_ne_notCf {n : ℕ} (h : n ≠ 0) : CfType.ofPin n ≠ .notCf := by
  rcases n with _ | _ | _ | _ | _ | _ | _ | _ | n
  · exact absurd rfl h
  all_goals simp [CfType.ofPin]

/-- A temporary register is only needed for loads that are not prefetches. -/
theorem loadMemType_of_tmpRegNeeded (h : r.tmpRegNeeded = true) :
    r.numLd ≠ 0 ∧ loadMemType r.opcode = .ld := by
  simp only [CpuRecord.tmpRegNeeded, CpuRecord.instHasLdUop, Bool.and_eq_true,
    decide_eq_true_eq] at h
  exact h.1

/-- The source registers of a uop are those of its part. -/
theorem setSources_eq (h : CreatedAs r p u) (hbranch : p = .branch → r.cfType ≠ 0) :
    setSources r u = { u with
      srcs := r.src.take (partNumSrcs r p) ++ extraSrcs r p u.aluUop
      numSrcRegs := partNumSrcs r p + (extraSrcs r p u.aluUop).length } := by
  have hmem := h.memType
  have hcf := h.cfType
  have hnum := h.numSrcRegs
  have halu := h.aluUop
  cases p with
  | load second =>
    simp only [partMemType, partCfType, partNumSrcs] at hmem hcf hnum
    have halu := halu (by simp) (by simp)
    have hne : loadMemType r.opcode ≠ .st := by
      unfold loadMemType
      split_ifs <;> simp
    simp [setSources, extraSrcs, partNumSrcs, hmem, hcf, hnum, halu, hne]
  | alu =>
    simp only [partMemType, partCfType, partNumSrcs] at hmem hcf hnum
    have halu := halu (by simp) (by simp)
    by_cases htmp : r.tmpRegNeeded = true <;>
      simp [setSources, extraSrcs, partNumSrcs, CpuUop.addSrcs, hmem, hcf, hnum, halu, htmp]
  | store =>
    simp only [partMemType, partCfType, partNumSrcs] at hmem hcf hnum
    have halu := halu (by simp) (by simp)
    by_cases htmp : r.tmpRegNeeded = true <;> by_cases hhas : r.instHasAluUop = true <;>
      simp [setSources, extraSrcs, partNumSrcs, CpuUop.addSrcs, hmem, hcf, hnum, halu, htmp, hhas]
  | branch =>
    simp only [partMemType, partCfType, partNumSrcs] at hmem hcf hnum
    have halu := halu (by simp) (by simp)
    have hne := ofPin_ne_notCf (hbranch rfl)
    by_cases htmp : r.tmpRegNeeded = true <;> by_cases hhas : r.instHasAluUop = true <;>
      simp [setSources, extraSrcs, partNumSrcs, CpuUop.addSrcs, hmem, hcf, hnum, halu, htmp, hhas,
        hne]
  | fence =>
    simp only [partMemType, partCfType, partNumSrcs] at hmem hcf hnum
    by_cases htmp : r.tmpRegNeeded = true <;> by_cases hstale : u.aluUop = true <;>
      simp [setSources, extraSrcs, partNumSrcs, CpuUop.addSrcs, hmem, hcf, hnum, htmp, hstale]
  | nop =>
    simp only [partMemType, partCfType, partNumSrcs] at hmem hcf hnum
    by_cases htmp : r.tmpRegNeeded = true <;> by_cases hstale : u.aluUop = true <;>
      simp [setSources, extraSrcs, partNumSrcs, CpuUop.addSrcs, hmem, hcf, hnum, htmp, hstale]

/-- The destination registers of a uop are those of its part. -/
theorem setDests_eq (hmem : u.memType = partMemType r p)
    (hnum : u.numDestRegs = partNumDests r p) :
    setDests r u = { u with
      dests := r.dst.take (partNumDests r p) ++ extraDests r p
      numDestRegs := partNumDests r p + (extraDests r p).length } := by
  by_cases htmp : r.tmpRegNeeded = true
  · have hload := (loadMemType_of_tmpRegNeeded htmp).2
    cases p <;> simp_all [setDests, extraDests, partMemType]
  · cases p <;> simp_all [setDests, extraDests]

/-- The static uop with number `ii` before its dynamic part is set. -/
def staticUop (r : CpuRecord) (num ii : ℕ) (u : CpuUop) : CpuUop :=
  setBarrier r (decide (ii + 1 = num))
    (setDests r (setSources r { u with addr := r.instructionAddr }))

/-- A static uop has the registers and the address of its part. -/
theorem staticUop_eq (h : CreatedAs r p u) (hbranch : p = .branch → r.cfType ≠ 0) (num ii : ℕ) :
    staticUop r num ii u = setBarrier r (decide (ii + 1 = num)) { u with
      addr := r.instructionAddr
      srcs := r.src.take (partNumSrcs r p) ++ extraSrcs r p u.aluUop
      numSrcRegs := partNumSrcs r p + (extraSrcs r p u.aluUop).length
      dests := r.dst.take (partNumDests r p) ++ extraDests r p
      numDestRegs := partNumDests r p + (extraDests r p).length } := by
  have haddr : CreatedAs r p { u with addr := r.instructionAddr } :=
    ⟨h.part, h.memType, h.cfType, h.numSrcRegs, h.numDestRegs, h.pin2ndMem, h.aluUop⟩
  unfold staticUop
  rw [setSources_eq haddr hbranch]
  exact congrArg (setBarrier r (decide (ii + 1 = num)))
    (setDests_eq h.memType h.numDestRegs)

/-- A barrier is set on a uop without an access. -/
theorem setBarrier_cases (r : CpuRecord) (last : Bool) (u : CpuUop) :
    setBarrier r last u = u ∨
      u.memType = .notMem ∧ setBarrier r last u = { u with barType := .barFetch, cfType := .ico } := by
  unfold setBarrier
  split
  · rename_i hbar
    exact Or.inr ⟨hbar.2.1, rfl⟩
  · exact Or.inl rfl

/-- The fields of a static uop that creation fixes; a barrier leaves the branch type alone when
there is an access. -/
theorem staticUop_fields (h : CreatedAs r p u) (hbranch : p = .branch → r.cfType ≠ 0)
    (num ii : ℕ) :
    (staticUop r num ii u).part = p ∧ (staticUop r num ii u).memType = partMemType r p ∧
      (staticUop r num ii u).pin2ndMem = partSecond p ∧ (staticUop r num ii u).eom = u.eom ∧
      (partMemType r p ≠ .notMem → (staticUop r num ii u).cfType = partCfType r p) := by
  rw [staticUop_eq h hbranch]
  rcases setBarrier_cases r (decide (ii + 1 = num)) { u with
      addr := r.instructionAddr
      srcs := r.src.take (partNumSrcs r p) ++ extraSrcs r p u.aluUop
      numSrcRegs := partNumSrcs r p + (extraSrcs r p u.aluUop).length
      dests := r.dst.take (partNumDests r p) ++ extraDests r p
      numDestRegs := partNumDests r p + (extraDests r p).length } with heq | ⟨hmem, heq⟩
  · rw [heq]
    exact ⟨h.part, h.memType, h.pin2ndMem, rfl, fun _ => h.cfType⟩
  · rw [heq]
    exact ⟨h.part, h.memType, h.pin2ndMem, rfl, fun hne => absurd (h.memType ▸ hmem) hne⟩

/-- The registers of a static uop. -/
theorem staticUop_registers (h : CreatedAs r p u) (hbranch : p = .branch → r.cfType ≠ 0)
    (num ii : ℕ) :
    (staticUop r num ii u).srcs = r.src.take (partNumSrcs r p) ++ extraSrcs r p u.aluUop ∧
      (staticUop r num ii u).numSrcRegs = partNumSrcs r p + (extraSrcs r p u.aluUop).length ∧
      (staticUop r num ii u).dests = r.dst.take (partNumDests r p) ++ extraDests r p ∧
      (staticUop r num ii u).numDestRegs = partNumDests r p + (extraDests r p).length := by
  rw [staticUop_eq h hbranch]
  unfold setBarrier
  split
  · exact ⟨rfl, rfl, rfl, rfl⟩
  · exact ⟨rfl, rfl, rfl, rfl⟩

/-! ## The loop over the static uops -/

/-- The entry of the static uop with number `ii`. -/
def staticInfo (r : CpuRecord) (num ii : ℕ) (u : CpuUop) : InstInfo :=
  InstInfo.ofUop (staticUop r num ii u) (if ii = 0 then num else 0)

/-- The slot of the static uop with number `ii`. -/
def staticSlot (k : CpuDecodeKnobs) (r : CpuRecord) (num ii : ℕ) (u : CpuUop) : CpuUop :=
  convertDynUop k r (staticInfo r num ii u) 0 { staticUop r num ii u with info := some (r.key ii) }

/-- After `m` turns of the loop. -/
structure DecodedNew (k : CpuDecodeKnobs) (r : CpuRecord) (num m : ℕ) (st st' : DecodeState) :
    Prop where
  slots : ∀ i, st'.slots i = if i < m then staticSlot k r num i (st.slots i) else st.slots i
  entry : ∀ i < m, st'.table (r.key i) = some (staticInfo r num i (st.slots i))
  table : ∀ a, (∀ i < m, a ≠ r.key i) → st'.table a = st.table a

/-- The uops of one instruction have different keys. -/
theorem uopKey_injective {i j : ℕ} (hi : i < 2 ^ 64) (hj : j < 2 ^ 64) (h : r.key i = r.key j) :
    i = j := by
  have hof : BitVec.ofNat 64 i = BitVec.ofNat 64 j := by
    unfold CpuRecord.key at h
    exact (BitVec.add_right_inj _).mp h
  have hnat := congrArg BitVec.toNat hof
  rwa [BitVec.toNat_ofNat, BitVec.toNat_ofNat, Nat.mod_eq_of_lt hi, Nat.mod_eq_of_lt hj] at hnat

/-- The loop that decodes a new instruction makes one static uop. -/
theorem decodeNew_step {num m : ℕ} {st' : DecodeState} (hm : m < 8)
    (h : DecodedNew k r num m st st') (hnew : st.table (r.key m) = none)
    (hfits : (staticUop r num m (st.slots m)).numDestRegs ≤ maxDests ∧
      (staticUop r num m (st.slots m)).numSrcRegs ≤ maxSrcs) :
    ∃ st'', decodeNew k r num m st' = some st'' ∧ DecodedNew k r num (m + 1) st st'' := by
  have hslot : st'.slots m = st.slots m := by
    rw [h.slots, if_neg (Nat.lt_irrefl m)]
  have hkey : ∀ i < m, r.key m ≠ r.key i := by
    intro i hi heq
    have := uopKey_injective (by omega) (by omega) heq
    omega
  have htable : st'.table (r.key m) = none := (h.table _ hkey).trans hnew
  refine ⟨{
    table := Function.update st'.table (r.key m) (some (staticInfo r num m (st.slots m)))
    slots := Function.update st'.slots m (staticSlot k r num m (st.slots m)) }, ?_, ?_⟩
  · have hinfo : convertTUopToInfo (staticUop r num m (st.slots m)) (if m = 0 then num else 0) =
        some (staticInfo r num m (st.slots m)) := if_pos hfits
    unfold decodeNew
    rw [htable, hslot]
    simp only [Option.isSome_none, Bool.false_eq_true, if_false]
    unfold staticUop at hinfo
    rw [hinfo]
    rfl
  · constructor
    · intro i
      rcases eq_or_ne i m with rfl | hi
      · rw [if_pos (Nat.lt_succ_self i)]
        exact Function.update_self _ _ _
      · refine (Function.update_of_ne hi _ _).trans ((h.slots i).trans ?_)
        exact if_congr (by omega) rfl rfl
    · intro i hi
      rcases eq_or_ne i m with rfl | hne
      · exact Function.update_self _ _ _
      · have hlt : i < m := by omega
        exact (Function.update_of_ne (hkey i hlt).symm _ _).trans (h.entry i hlt)
    · intro a ha
      refine (Function.update_of_ne (ha m (Nat.lt_succ_self m)) _ _).trans ?_
      exact h.table a fun i hi => ha i (by omega)

/-- The loop over the static uops goes to its end when no uop is in the table and all register
lists fit. -/
theorem decodeNew_loop (st : DecodeState) {num : ℕ} (hnum : num ≤ 8) (hnew : ∀ i < num, st.table (r.key i) = none)
    (hfits : ∀ i < num, (staticUop r num i (st.slots i)).numDestRegs ≤ maxDests ∧
      (staticUop r num i (st.slots i)).numSrcRegs ≤ maxSrcs) :
    ∃ st', (List.range num).foldlM (fun st ii => decodeNew k r num ii st) st = some st' ∧
      DecodedNew k r num num st st' := by
  refine foldlM_range_some (I := fun m => DecodedNew k r num m st) num ?_ ?_
  · exact ⟨fun i => rfl, fun i hi => absurd hi (Nat.not_lt_zero i), fun a _ => rfl⟩
  · intro m hm st' h
    exact decodeNew_step (by omega) h (hnew m hm) (hfits m hm)

/-! ## A new instruction -/

/-- No uop of the instruction is in the hash table. -/
def NewInst (r : CpuRecord) (st : DecodeState) : Prop :=
  ∀ i < 8, st.table (r.key i) = none

/-- What the dynamic part of a uop leaves alone. -/
theorem convertDynUop_frame (info : InstInfo) (offset : Addr) (u : CpuUop) :
    (convertDynUop k r info offset u).reads = u.reads ∧
      (convertDynUop k r info offset u).writes = u.writes ∧
      (convertDynUop k r info offset u).info = u.info ∧
      (convertDynUop k r info offset u).eom = u.eom := by
  unfold convertDynUop
  simp only [CpuUop.reads, CpuUop.writes]
  split_ifs <;> exact ⟨rfl, rfl, rfl, rfl⟩

/-- The address of a load. -/
def loadVaddr (r : CpuRecord) (second : Bool) : Addr :=
  if second then r.ldVaddr2 else r.ldVaddr1

/-- A dynamic store has the address and the size of the record. -/
theorem convertDynUop_store {info : InstInfo} (hcf : info.cfType = .notCf)
    (hmem : info.memType = .st) (offset : Addr) (u : CpuUop) :
    (convertDynUop k r info offset u).va =
        (r.stVaddr + offset) * BitVec.ofNat 64 (k.ampVal r) ∧
      (convertDynUop k r info offset u).memSize =
        min (r.memWriteSize * k.ampVal r) k.repMovMemSizeMaxNew := by
  simp [convertDynUop, hcf, hmem]

/-- A dynamic load has the address and the size of the record. -/
theorem convertDynUop_load {info : InstInfo} (hcf : info.cfType = .notCf)
    (hmem : info.memType = loadMemType r.opcode) (offset : Addr) (u : CpuUop) :
    (convertDynUop k r info offset u).va =
        (loadVaddr r info.secondMem + offset) * BitVec.ofNat 64 (k.ampVal r) ∧
      (convertDynUop k r info offset u).memSize =
        min (r.memReadSize * k.ampVal r) k.repMovMemSizeMaxNew := by
  have htype : loadMemType r.opcode ≠ .st ∧ (loadMemType r.opcode).readsLoadAddr = true := by
    unfold loadMemType
    split_ifs <;> exact ⟨by simp, rfl⟩
  simp [convertDynUop, hcf, hmem, htype, loadVaddr]

/-- The static uops of a new instruction and their entries. -/
structure StaticDecoded (k : CpuDecodeKnobs) (r : CpuRecord) (st st' : DecodeState) : Prop where
  entry : ∀ i p, (parts k r)[i]? = some p → ∃ info, st'.table (r.key i) = some info ∧
    info.part = p ∧ info.memType = partMemType r p ∧ info.secondMem = partSecond p ∧
      (partMemType r p ≠ .notMem → info.cfType = .notCf)
  info : ∀ i p, (parts k r)[i]? = some p → (st'.slots i).info = some (r.key i)
  reads : ∀ i p, (parts k r)[i]? = some p → ∃ stale,
    (st'.slots i).reads = r.src.take (partNumSrcs r p) ++ extraSrcs r p stale
  writes : ∀ i p, (parts k r)[i]? = some p →
    (st'.slots i).writes = r.dst.take (partNumDests r p) ++ extraDests r p
  store : ∀ i, (parts k r)[i]? = some .store →
    (st'.slots i).va = r.stVaddr * BitVec.ofNat 64 (k.ampVal r) ∧
      (st'.slots i).memSize = min (r.memWriteSize * k.ampVal r) k.repMovMemSizeMaxNew
  load : ∀ i second, (parts k r)[i]? = some (.load second) →
    (st'.slots i).va = loadVaddr r second * BitVec.ofNat 64 (k.ampVal r) ∧
      (st'.slots i).memSize = min (r.memReadSize * k.ampVal r) k.repMovMemSizeMaxNew
  eom : ∀ i < (parts k r).length, (st'.slots i).eom = true ↔ i + 1 = (parts k r).length
  rest : ∀ i, (parts k r).length ≤ i → st'.slots i = st.slots i

/-- The registers of a part fit into the lists of a uop. -/
theorem lists_fit (hfits : RegistersFit r) (hp : p ∈ parts k r) (stale : Bool) :
    partNumSrcs r p + (extraSrcs r p stale).length ≤ maxSrcs ∧
      partNumDests r p + (extraDests r p).length ≤ maxDests := by
  have hfew : (if stale && r.tmpRegNeeded then [trRegTmp0] else []).length ≤ 1 := by
    split_ifs <;> simp
  rcases mem_parts.mp hp with hown | ⟨rfl, -⟩
  · have hfit := hfits p hown
    cases p with
    | fence | nop =>
      refine ⟨?_, hfit.2⟩
      simp only [partNumSrcs, extraSrcs, maxSrcs]
      omega
    | load | alu | store | branch => exact hfit
  · refine ⟨?_, Nat.zero_le _⟩
    simp only [partNumSrcs, extraSrcs, maxSrcs]
    omega

/-- The static uops after their creation. -/
def createdState (k : CpuDecodeKnobs) (r : CpuRecord) (st : DecodeState) : DecodeState :=
  { st with slots := (createUops k r st.slots).slots }

/-- The uop of a part is created as that part. -/
theorem created_of_part (st : DecodeState) {i : ℕ} (hp : (parts k r)[i]? = some p) :
    CreatedAs r p ((createdState k r st).slots i) ∧ (p = .branch → r.cfType ≠ 0) := by
  refine ⟨(createUops_lists k r st.slots).uop i p hp, fun hbranch => ?_⟩
  exact branch_mem_parts.mp (hbranch ▸ List.mem_of_getElem? hp)

/-- The loop decodes every part of a new instruction. -/
theorem decodeStatic_loop (hnew : NewInst r st) (hfits : RegistersFit r) :
    ∃ st', decodeStatic k r st =
        some (st'.setEom ((parts k r).length - 1), (parts k r).length) ∧
      DecodedNew k r (parts k r).length (parts k r).length (createdState k r st) st' := by
  have hlen := parts_length k r
  have hnum : (createUops k r st.slots).num = (parts k r).length :=
    (createUops_lists k r st.slots).num
  obtain ⟨st', hloop, hdecoded⟩ := decodeNew_loop (k := k) (r := r) (createdState k r st)
    (show (parts k r).length ≤ 8 by omega) (fun i hi => hnew i (by omega)) (by
      intro i hi
      have hp := List.getElem?_eq_getElem hi
      obtain ⟨hcreated, hbranch⟩ := created_of_part st hp
      obtain ⟨-, hsrcs, -, hdests⟩ := staticUop_registers hcreated hbranch (parts k r).length i
      have hfit := lists_fit (k := k) hfits (List.getElem_mem hi)
        ((createdState k r st).slots i).aluUop
      rw [hsrcs, hdests]
      exact ⟨hfit.2, hfit.1⟩)
  refine ⟨st', ?_, hdecoded⟩
  unfold decodeStatic
  rw [hnew 0 (by omega)]
  simp only [hnum]
  unfold createdState at hloop
  rw [hloop]
  rfl

/-- Setting the end-of-macro flag changes nothing else. -/
theorem setEom_frame (st : DecodeState) (n i : ℕ) :
    ((st.setEom n).slots i).info = (st.slots i).info ∧
      ((st.setEom n).slots i).reads = (st.slots i).reads ∧
      ((st.setEom n).slots i).writes = (st.slots i).writes ∧
      ((st.setEom n).slots i).va = (st.slots i).va ∧
      ((st.setEom n).slots i).memSize = (st.slots i).memSize := by
  simp only [DecodeState.setEom, Function.update_apply]
  split_ifs with hi
  · subst hi
    exact ⟨rfl, rfl, rfl, rfl, rfl⟩
  · exact ⟨rfl, rfl, rfl, rfl, rfl⟩

/-- The registers and the access of a slot that the loop wrote. -/
theorem staticSlot_fields (h : CreatedAs r p u) (hbranch : p = .branch → r.cfType ≠ 0)
    (hfit : partNumSrcs r p ≤ maxSrcs ∧ partNumDests r p ≤ maxDests) (num ii : ℕ) :
    (staticSlot k r num ii u).info = some (r.key ii) ∧
      (staticSlot k r num ii u).reads =
        r.src.take (partNumSrcs r p) ++ extraSrcs r p u.aluUop ∧
      (staticSlot k r num ii u).writes = r.dst.take (partNumDests r p) ++ extraDests r p ∧
      (staticSlot k r num ii u).eom = u.eom := by
  obtain ⟨hsrcs, hnumSrcs, hdests, hnumDests⟩ := staticUop_registers h hbranch num ii
  obtain ⟨-, -, -, heom, -⟩ := staticUop_fields h hbranch num ii
  obtain ⟨hr, hw, hi, he⟩ := convertDynUop_frame (k := k) (r := r) (staticInfo r num ii u) 0
    { staticUop r num ii u with info := some (r.key ii) }
  refine ⟨hi, hr.trans ?_, hw.trans ?_, he.trans heom⟩
  · simp only [CpuUop.reads, hsrcs, hnumSrcs]
    exact List.take_of_length_le (by simp [r.src_length, hfit.1])
  · simp only [CpuUop.writes, hdests, hnumDests]
    exact List.take_of_length_le (by simp [r.dst_length, hfit.2])

/-- The entry of a static uop. -/
theorem staticInfo_fields (h : CreatedAs r p u) (hbranch : p = .branch → r.cfType ≠ 0)
    (num ii : ℕ) :
    (staticInfo r num ii u).part = p ∧ (staticInfo r num ii u).memType = partMemType r p ∧
      (staticInfo r num ii u).secondMem = partSecond p ∧
      (partMemType r p ≠ .notMem → (staticInfo r num ii u).cfType = partCfType r p) := by
  obtain ⟨hpart, hmem, hsecond, -, hcf⟩ := staticUop_fields h hbranch num ii
  exact ⟨hpart, hmem, hsecond, hcf⟩

/-- An offset of zero changes no address. -/
theorem addr_add_zero (a : Addr) : a + 0 = a := BitVec.add_zero a

/-- A static store has the address and the size of the record. -/
theorem staticSlot_store (h : CreatedAs r .store u) (num ii : ℕ) :
    (staticSlot k r num ii u).va = r.stVaddr * BitVec.ofNat 64 (k.ampVal r) ∧
      (staticSlot k r num ii u).memSize =
        min (r.memWriteSize * k.ampVal r) k.repMovMemSizeMaxNew := by
  obtain ⟨-, hmem, -, hcf⟩ := staticInfo_fields h (by simp) num ii
  obtain ⟨hva, hsize⟩ := convertDynUop_store (k := k) (r := r) (hcf (by simp [partMemType])) hmem 0
    { staticUop r num ii u with info := some (r.key ii) }
  rw [addr_add_zero] at hva
  exact ⟨hva, hsize⟩

/-- A load is a memory uop. -/
theorem loadMemType_ne_notMem (opcode : ℕ) : loadMemType opcode ≠ .notMem := by
  unfold loadMemType
  split_ifs <;> simp

/-- A static load has the address and the size of the record. -/
theorem staticSlot_load {second : Bool} (h : CreatedAs r (.load second) u) (num ii : ℕ) :
    (staticSlot k r num ii u).va = loadVaddr r second * BitVec.ofNat 64 (k.ampVal r) ∧
      (staticSlot k r num ii u).memSize =
        min (r.memReadSize * k.ampVal r) k.repMovMemSizeMaxNew := by
  obtain ⟨-, hmem, hsecond, hcf⟩ := staticInfo_fields h (by simp) num ii
  obtain ⟨hva, hsize⟩ := convertDynUop_load (k := k) (r := r)
    (hcf (loadMemType_ne_notMem r.opcode)) hmem 0
    { staticUop r num ii u with info := some (r.key ii) }
  rw [addr_add_zero, hsecond] at hva
  exact ⟨hva, hsize⟩

/-- Decoding of a new instruction. -/
theorem decodeStatic_new (hnew : NewInst r st) (hfits : RegistersFit r) :
    ∃ st', decodeStatic k r st = some (st', (parts k r).length) ∧ StaticDecoded k r st st' := by
  obtain ⟨st', heq, hdecoded⟩ := decodeStatic_loop (k := k) hnew hfits
  refine ⟨_, heq, ?_⟩
  have hlen := (parts_length k r).1
  have hslot : ∀ (i : ℕ) (p : UopPart), (parts k r)[i]? = some p → st'.slots i =
      staticSlot k r (parts k r).length i ((createdState k r st).slots i) := by
    intro i p hp
    rw [hdecoded.slots i, if_pos (List.getElem?_eq_some_iff.mp hp).1]
  have hfit : ∀ (i : ℕ) (p : UopPart), (parts k r)[i]? = some p →
      partNumSrcs r p ≤ maxSrcs ∧ partNumDests r p ≤ maxDests := by
    intro i p hp
    have hfit := lists_fit (k := k) hfits (List.mem_of_getElem? hp) false
    omega
  constructor
  · intro i p hp
    obtain ⟨hcreated, hbranch⟩ := created_of_part st hp
    obtain ⟨hpart, hmem, hsecond, hcf⟩ :=
      staticInfo_fields hcreated hbranch (parts k r).length i
    refine ⟨_, hdecoded.entry i (List.getElem?_eq_some_iff.mp hp).1, hpart, hmem, hsecond, ?_⟩
    intro hne
    rw [hcf hne]
    cases p <;> first | rfl | exact absurd rfl hne
  · intro i p hp
    obtain ⟨hcreated, hbranch⟩ := created_of_part st hp
    rw [(setEom_frame st' _ i).1, hslot i p hp]
    exact (staticSlot_fields hcreated hbranch (hfit i p hp) _ i).1
  · intro i p hp
    obtain ⟨hcreated, hbranch⟩ := created_of_part st hp
    rw [(setEom_frame st' _ i).2.1, hslot i p hp]
    exact ⟨_, (staticSlot_fields hcreated hbranch (hfit i p hp) _ i).2.1⟩
  · intro i p hp
    obtain ⟨hcreated, hbranch⟩ := created_of_part st hp
    rw [(setEom_frame st' _ i).2.2.1, hslot i p hp]
    exact (staticSlot_fields hcreated hbranch (hfit i p hp) _ i).2.2.1
  · intro i hp
    rw [(setEom_frame st' _ i).2.2.2.1, (setEom_frame st' _ i).2.2.2.2, hslot i _ hp]
    exact staticSlot_store (created_of_part st hp).1 _ i
  · intro i second hp
    rw [(setEom_frame st' _ i).2.2.2.1, (setEom_frame st' _ i).2.2.2.2, hslot i _ hp]
    exact staticSlot_load (created_of_part st hp).1 _ i
  · intro i hi
    have hp := List.getElem?_eq_getElem hi
    obtain ⟨hcreated, hbranch⟩ := created_of_part st hp
    rcases eq_or_ne i ((parts k r).length - 1) with rfl | hne
    · have heom : ((st'.setEom ((parts k r).length - 1)).slots ((parts k r).length - 1)).eom =
          true := by simp [DecodeState.setEom]
      rw [heom]
      exact ⟨fun _ => by omega, fun _ => rfl⟩
    · have hnum := (createUops_lists k r st.slots).num
      have hslot : ((st'.setEom ((parts k r).length - 1)).slots i).eom =
          ((createdState k r st).slots i).eom := by
        simp only [DecodeState.setEom, Function.update_of_ne hne, hdecoded.slots i, if_pos hi]
        exact (staticSlot_fields (k := k) hcreated hbranch (hfit i _ hp) _ i).2.2.2
      have heom := createUops_eomLast k r st.slots i (by omega)
      rw [hslot]
      constructor
      · intro htrue
        exact absurd (htrue.symm.trans heom) (by simp)
      · intro hlast
        omega
  · intro i hi
    have hnum := (createUops_lists k r st.slots).num
    simp only [DecodeState.setEom]
    rw [Function.update_of_ne (by omega), hdecoded.slots i, if_neg (by omega)]
    exact createUops_untouched k r st.slots i (by omega) (by omega)

end MacSim.Analysis
