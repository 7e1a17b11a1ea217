import MacSim.Analysis.CpuDecoding

/-!
# Repeat moves

Every repetition of a string instruction gives the static uops another run of slots.  The
registers in these slots are what earlier instructions left there; the access is that of the next
four bytes.
-/

set_option autoImplicit false

namespace MacSim.Analysis

open MacSim.Model MacSim.Computation

variable {k : CpuDecodeKnobs} {r : CpuRecord} {num rest counter dyn : ℕ} {st : DecodeState}

/-! ## One repetition -/

/-- The slot of the uop with number `ii` of a repetition, from what the slot held before. -/
def repeatedSlot (k : CpuDecodeKnobs) (r : CpuRecord) (rest counter ii : ℕ) (info : InstInfo)
    (u : CpuUop) : CpuUop :=
  { convertDynUop k r info (repOffset k r counter) u with
    memSize := min rest k.repMovMemSizeMaxNew
    info := some (r.key ii)
    eom := false
    addr := r.instructionAddr }

/-- The same uop but for the next program counter. -/
def SameUop (u u' : CpuUop) : Prop :=
  u' = { u with npc := u'.npc }

/-- A uop is the same as itself. -/
theorem SameUop.refl (u : CpuUop) : SameUop u u := rfl

/-- Being the same uop is transitive. -/
theorem SameUop.trans {u v w : CpuUop} (h : SameUop u v) (h' : SameUop v w) : SameUop u w := by
  unfold SameUop at *
  rw [h', h]

/-- The static uops have entries. -/
def HasEntries (r : CpuRecord) (num : ℕ) (st : DecodeState) : Prop :=
  ∀ i < num, (st.table (r.key i)).isSome

/-- After `m` uops of a repetition. -/
structure Repeated (k : CpuDecodeKnobs) (r : CpuRecord) (rest counter dyn m : ℕ)
    (st st' : DecodeState) : Prop where
  table : st'.table = st.table
  before : ∀ i < dyn, SameUop (st.slots i) (st'.slots i)
  uop : ∀ i < m, ∃ info, st.table (r.key i) = some info ∧
    st'.slots (dyn + i) = repeatedSlot k r rest counter i info (st.slots (dyn + i))
  after : ∀ i, dyn + m ≤ i → st'.slots i = st.slots i

/-- One more repetition fills one more slot. -/
theorem repeatUop_step {m : ℕ} {st' : DecodeState} (h : Repeated k r rest counter dyn m st st')
    (hentry : (st.table (r.key m)).isSome) :
    ∃ st'', repeatUop k r rest counter (dyn + m) m st' = some st'' ∧
      Repeated k r rest counter dyn (m + 1) st st'' := by
  obtain ⟨info, hinfo⟩ := Option.isSome_iff_exists.mp hentry
  refine ⟨⟨st'.table, Function.update st'.slots (dyn + m)
    (repeatedSlot k r rest counter m info (st.slots (dyn + m)))⟩, ?_, h.table, ?_, ?_, ?_⟩
  · unfold repeatUop
    rw [h.table, hinfo, h.after (dyn + m) (Nat.le_refl _)]
    rfl
  · intro i hi
    simp only [Function.update_of_ne (show i ≠ dyn + m by omega)]
    exact h.before i hi
  · intro i hi
    rcases eq_or_ne i m with rfl | hne
    · exact ⟨info, hinfo, Function.update_self _ _ _⟩
    · obtain ⟨info', hinfo', hslot⟩ := h.uop i (by omega)
      refine ⟨info', hinfo', ?_⟩
      simp only [Function.update_of_ne (show dyn + i ≠ dyn + m by omega)]
      exact hslot
  · intro i hi
    simp only [Function.update_of_ne (show i ≠ dyn + m by omega)]
    exact h.after i (by omega)

/-- A repetition of all static uops. -/
theorem repeatUops_repeated (rest counter : ℕ) (hnum : num < 8) (hdyn : 0 < dyn) (hentries : HasEntries r num st) :
    ∃ st', repeatUops k r num rest counter dyn st = some st' ∧
      Repeated k r rest counter dyn num st st' := by
  unfold repeatUops
  rw [if_neg (by omega)]
  refine foldlM_range_some (I := fun m => Repeated k r rest counter dyn m st) num ?_ ?_
  · refine ⟨rfl, ?_, fun i hi => absurd hi (Nat.not_lt_zero i), ?_⟩
    · intro i _
      rcases eq_or_ne i (dyn - 1) with rfl | hne
      · simp only [Function.update_self]
        rfl
      · simp only [Function.update_of_ne hne]
        exact SameUop.refl _
    · intro i hi
      simp only [Function.update_of_ne (show i ≠ dyn - 1 by omega)]
  · intro m hm st' h
    exact repeatUop_step h (hentries m hm)

/-! ## The loop -/

/-- After `n` repetitions, with the tests that let each of them go on and the one that ended the
loop. -/
structure Repetitions (k : CpuDecodeKnobs) (r : CpuRecord) (num rest counter dyn n : ℕ)
    (st st' : DecodeState) : Prop where
  table : st'.table = st.table
  before : ∀ i < dyn, SameUop (st.slots i) (st'.slots i)
  uop : ∀ q < n, ∀ i < num, ∃ info, st.table (r.key i) = some info ∧
    SameUop (repeatedSlot k r (rest - q * k.repMovMemSizeMaxNew) (counter + q) i info
      (st.slots (dyn + q * num + i))) (st'.slots (dyn + q * num + i))
  after : ∀ i, dyn + n * num ≤ i → st'.slots i = st.slots i
  turn : ∀ q < n, q * k.repMovMemSizeMaxNew < rest ∧ dyn + q * num < maxPup
  stop : rest ≤ n * k.repMovMemSizeMaxNew ∨ maxPup ≤ dyn + n * num

/-- The largest size of a repeated move is positive. -/
theorem repMovMemSizeMaxNew_pos (k : CpuDecodeKnobs) : 0 < k.repMovMemSizeMaxNew := by
  simp [CpuDecodeKnobs.repMovMemSizeMaxNew, repMovMemSizeMax]

/-- One repetition in front of others. -/
theorem Repetitions.cons {n : ℕ} {st₁ st' : DecodeState} (hrest : 0 < rest) (hdyn : dyn < maxPup)
    (hfirst : Repeated k r rest counter dyn num st st₁)
    (hothers : Repetitions k r num (rest - k.repMovMemSizeMaxNew) (counter + 1) (dyn + num) n
      st₁ st') : Repetitions k r num rest counter dyn (n + 1) st st' := by
  have hindex : ∀ q, dyn + (q + 1) * num = dyn + num + q * num := by
    intro q
    rw [Nat.succ_mul]
    omega
  have hsize : ∀ q, (q + 1) * k.repMovMemSizeMaxNew =
      k.repMovMemSizeMaxNew + q * k.repMovMemSizeMaxNew := by
    intro q
    rw [Nat.succ_mul]
    omega
  refine ⟨hothers.table.trans hfirst.table, ?_, ?_, ?_, ?_, ?_⟩
  · intro i hi
    exact (hfirst.before i hi).trans (hothers.before i (by omega))
  · intro q hq i hi
    cases q with
    | zero =>
      obtain ⟨info, hinfo, hslot⟩ := hfirst.uop i hi
      refine ⟨info, hinfo, ?_⟩
      have hsame := hothers.before (dyn + i) (by omega)
      rw [hslot] at hsame
      simpa using hsame
    | succ q =>
      obtain ⟨info, hinfo, hslot⟩ := hothers.uop q (by omega) i hi
      rw [hfirst.table] at hinfo
      rw [hfirst.after _ (by omega), Nat.sub_sub, ← hsize q, ← hindex q,
        show counter + 1 + q = counter + (q + 1) by omega] at hslot
      exact ⟨info, hinfo, hslot⟩
  · intro i hi
    rw [hindex] at hi
    rw [hothers.after i hi, hfirst.after i (by omega)]
  · intro q hq
    cases q with
    | zero => exact ⟨by omega, by omega⟩
    | succ q =>
      have hturn := hothers.turn q (by omega)
      rw [hindex, hsize]
      omega
  · have hstop := hothers.stop
    rw [hindex, hsize]
    omega

/-- The entries of a record are in the table only. -/
theorem HasEntries.congr {st' : DecodeState} (h : HasEntries r num st)
    (htable : st'.table = st.table) : HasEntries r num st' := by
  intro i hi
  rw [htable]
  exact h i hi

/-- The loop ends, after repetitions of all static uops. -/
theorem repeatLoop_repetitions (rest counter : ℕ) (hnum : num < 8) (hdyn : 0 < dyn) (hentries : HasEntries r num st) :
    ∃ n st', repeatLoop k r num rest counter dyn st = some (st', dyn + n * num) ∧
      Repetitions k r num rest counter dyn n st st' := by
  induction rest using Nat.strong_induction_on generalizing counter dyn st with
  | _ rest ih =>
    rw [repeatLoop]
    by_cases hgo : 0 < rest ∧ dyn < maxPup
    · obtain ⟨st₁, hfirst, hrepeated⟩ := repeatUops_repeated (k := k) rest counter hnum hdyn
        hentries
      have hchunk := repMovMemSizeMaxNew_pos k
      obtain ⟨n, st', hloop, hothers⟩ := @ih (rest - k.repMovMemSizeMaxNew) (by omega)
        (dyn + num) st₁ (counter + 1) (by omega) (hentries.congr hrepeated.table)
      refine ⟨n + 1, st', ?_, hothers.cons hgo.1 hgo.2 hrepeated⟩
      rw [dif_pos hgo, hfirst]
      simp only [hloop, Nat.succ_mul]
      rw [Nat.add_assoc, Nat.add_comm num]
    · refine ⟨0, st, ?_, rfl, fun i _ => SameUop.refl _, fun q hq => absurd hq (Nat.not_lt_zero q),
        fun i _ => rfl, fun q hq => absurd hq (Nat.not_lt_zero q), by omega⟩
      rw [dif_neg hgo, Nat.zero_mul, Nat.add_zero]

/-! ## The decoded instruction -/

/-- The same entry, registers and access. -/
structure SameAccess (u u' : CpuUop) : Prop where
  info : u'.info = u.info
  reads : u'.reads = u.reads
  writes : u'.writes = u.writes
  va : u'.va = u.va
  memSize : u'.memSize = u.memSize

/-- The same uop has the same access. -/
theorem SameUop.access {u u' : CpuUop} (h : SameUop u u') : SameAccess u u' := by
  rw [SameUop] at h
  rw [h]
  exact ⟨rfl, rfl, rfl, rfl, rfl⟩

/-- The same uop ends its instruction where the other does. -/
theorem SameUop.eom {u u' : CpuUop} (h : SameUop u u') : u'.eom = u.eom := by
  rw [SameUop] at h
  rw [h]

/-- A new instruction whose static uops are repeated `n` times. -/
structure Expanded (k : CpuDecodeKnobs) (r : CpuRecord) (n : ℕ) (st : DecodeState)
    (d : CpuDecoded) : Prop where
  dyn : d.dynUopCounter = (parts k r).length + n * (parts k r).length
  entry : ∀ j p, (parts k r)[j]? = some p → ∃ info, d.table (r.key j) = some info ∧
    info.part = p ∧ info.memType = partMemType r p ∧ info.secondMem = partSecond p
  static : ∃ st', StaticDecoded k r st st' ∧
    ∀ j < (parts k r).length, SameAccess (st'.slots j) (d.slots j)
  repeated : ∀ q < n, ∀ j p, (parts k r)[j]? = some p → ∃ info, info.part = p ∧
    info.memType = partMemType r p ∧ info.secondMem = partSecond p ∧
    (partMemType r p ≠ .notMem → info.cfType = .notCf) ∧
    SameAccess (repeatedSlot k r (r.memReadSize - k.repMovMemSizeMaxNew -
        q * k.repMovMemSizeMaxNew) (1 + q) j info
      (st.slots ((parts k r).length + q * (parts k r).length + j)))
      (d.slots ((parts k r).length + q * (parts k r).length + j))
  eom : ∀ i < d.dynUopCounter, (d.slots i).eom = true ↔
    i + 1 = (parts k r).length ∨ i + 1 = d.dynUopCounter

/-- Having the same access is transitive. -/
theorem SameAccess.trans {u v w : CpuUop} (h : SameAccess u v) (h' : SameAccess v w) :
    SameAccess u w :=
  ⟨h'.info.trans h.info, h'.reads.trans h.reads, h'.writes.trans h.writes, h'.va.trans h.va,
    h'.memSize.trans h.memSize⟩

/-- The array and the table at the end, from those after the repetitions. -/
theorem Expanded.of_repetitions {n : ℕ} {st₁ st₂ : DecodeState} {d : CpuDecoded}
    (hstatic : StaticDecoded k r st st₁)
    (hrep : Repetitions k r (parts k r).length rest 1 (parts k r).length n st₁ st₂)
    (hrest : 0 < n → rest = r.memReadSize - k.repMovMemSizeMaxNew)
    (hdyn : d.dynUopCounter = (parts k r).length + n * (parts k r).length)
    (htable : ∀ j info, st₂.table (r.key j) = some info → ∃ numUop,
      d.table (r.key j) = some { info with numUop := numUop })
    (hslots : ∀ i, SameAccess (st₂.slots i) (d.slots i))
    (heom : ∀ i, (d.slots i).eom = true ↔ (st₂.slots i).eom = true ∨ i + 1 = d.dynUopCounter) :
    Expanded k r n st d := by
  have hlen := (parts_length k r).1
  refine ⟨hdyn, ?_, ⟨st₁, hstatic, fun j hj => (hrep.before j hj).access.trans (hslots j)⟩, ?_, ?_⟩
  · intro j p hp
    obtain ⟨info, hinfo, hpart, hmem, hsecond, -⟩ := hstatic.entry j p hp
    obtain ⟨numUop, hentry⟩ := htable j info (by rw [hrep.table, hinfo])
    exact ⟨_, hentry, hpart, hmem, hsecond⟩
  · intro q hq j p hp
    obtain ⟨info, hinfo, hpart, hmem, hsecond, hcf⟩ := hstatic.entry j p hp
    obtain ⟨info', hinfo', hslot⟩ := hrep.uop q hq j (List.getElem?_eq_some_iff.mp hp).1
    obtain rfl := Option.some.inj (hinfo.symm.trans hinfo')
    rw [hstatic.rest _ (by omega), hrest (by omega)] at hslot
    exact ⟨info, hpart, hmem, hsecond, hcf, hslot.access.trans (hslots _)⟩
  · intro i hi
    rw [heom i]
    refine or_congr_left ?_
    by_cases hlt : i < (parts k r).length
    · rw [(hrep.before i hlt).eom]
      exact hstatic.eom i hlt
    · have hq : (i - (parts k r).length) / (parts k r).length < n := by
        rw [Nat.div_lt_iff_lt_mul hlen]
        omega
      have hindex : (parts k r).length + (i - (parts k r).length) / (parts k r).length *
          (parts k r).length + (i - (parts k r).length) % (parts k r).length = i := by
        have := Nat.div_add_mod' (i - (parts k r).length) (parts k r).length
        omega
      obtain ⟨info, -, hslot⟩ := hrep.uop _ hq _ (Nat.mod_lt _ hlen)
      rw [hindex] at hslot
      rw [hslot.eom]
      simp only [repeatedSlot, Bool.false_eq_true, false_iff]
      omega

/-- The last step of decoding: the end of the instruction and the number of its static uops. -/
def finish (r : CpuRecord) (num dyn : ℕ) (st : DecodeState) : CpuDecoded where
  table := Function.update st.table (r.key 0)
    ((st.table (r.key 0)).map fun info => { info with numUop := num })
  slots := Function.update st.slots (dyn - 1)
    { st.slots (dyn - 1) with eom := true, npc := r.instructionNextAddr }
  numUop := num
  dynUopCounter := dyn

/-- The end of a decode sets the number of uops of an entry and nothing else in it. -/
theorem finish_table (r : CpuRecord) (num dyn : ℕ) (st : DecodeState) {j : ℕ} {info : InstInfo}
    (h : st.table (r.key j) = some info) : ∃ numUop,
      (finish r num dyn st).table (r.key j) = some { info with numUop := numUop } := by
  by_cases hkey : r.key j = r.key 0
  · rw [hkey] at h ⊢
    exact ⟨num, (Function.update_self _ _ _).trans (by rw [h]; rfl)⟩
  · exact ⟨info.numUop, (Function.update_of_ne hkey _ _).trans h⟩

/-- The end of a decode keeps the access of every slot. -/
theorem finish_slots (r : CpuRecord) (num dyn : ℕ) (st : DecodeState) (i : ℕ) :
    SameAccess (st.slots i) ((finish r num dyn st).slots i) := by
  simp only [finish, Function.update_apply]
  split_ifs with hi
  · subst hi
    exact ⟨rfl, rfl, rfl, rfl, rfl⟩
  · exact ⟨rfl, rfl, rfl, rfl, rfl⟩

/-- The end of a decode marks the last slot as the end of the instruction. -/
theorem finish_eom (r : CpuRecord) (num : ℕ) {dyn : ℕ} (st : DecodeState) (hdyn : 0 < dyn) (i : ℕ) :
    ((finish r num dyn st).slots i).eom = true ↔ (st.slots i).eom = true ∨ i + 1 = dyn := by
  simp only [finish, Function.update_apply]
  split_ifs with hi
  · simp only [true_iff]
    exact Or.inr (by omega)
  · exact ⟨Or.inl, fun h => h.resolve_right (by omega)⟩

/-- A string instruction notes the number of its uops in the first one. -/
def countUops (dyn : ℕ) (st : DecodeState) : DecodeState :=
  { st with slots := Function.update st.slots 0 { st.slots 0 with repUopNum := dyn } }

/-- Counting the uops keeps the access and the mark of every slot. -/
theorem countUops_slots (dyn : ℕ) (st : DecodeState) (i : ℕ) :
    SameAccess (st.slots i) ((countUops dyn st).slots i) ∧
      ((countUops dyn st).slots i).eom = (st.slots i).eom := by
  simp only [countUops, Function.update_apply]
  split_ifs with hi
  · subst hi
    exact ⟨⟨rfl, rfl, rfl, rfl, rfl⟩, rfl⟩
  · exact ⟨⟨rfl, rfl, rfl, rfl, rfl⟩, rfl⟩

/-- A new instruction that is no string instruction. -/
theorem convert_other (hop : r.opcode ≠ CpuOpcode.stringop) (hnew : NewInst r st)
    (hfits : RegistersFit r) :
    ∃ d, convertPinuopToTUop k r st = some d ∧ Expanded k r 0 st d := by
  obtain ⟨st₁, hdecode, hstatic⟩ := decodeStatic_new (k := k) hnew hfits
  have hlen := (parts_length k r).1
  have hnone : Repetitions k r (parts k r).length 0 1 (parts k r).length 0 st₁ st₁ :=
    ⟨rfl, fun i _ => SameUop.refl _, fun q hq => absurd hq (Nat.not_lt_zero q), fun i _ => rfl,
      fun q hq => absurd hq (Nat.not_lt_zero q), Or.inl (Nat.zero_le _)⟩
  refine ⟨finish r (parts k r).length (parts k r).length st₁, ?_, ?_⟩
  · unfold convertPinuopToTUop
    rw [hdecode]
    simp only [Option.bind_eq_bind, Option.bind_some, if_neg hop]
    rfl
  · exact Expanded.of_repetitions hstatic hnone (fun h => absurd h (Nat.lt_irrefl 0)) (by simp [finish])
      (fun j info h => finish_table r _ _ _ h) (finish_slots r _ _ st₁) (finish_eom r _ st₁ hlen)

/-- A new string instruction that moves something. -/
theorem convert_string (hop : r.opcode = CpuOpcode.stringop) (hsize : r.memReadSize ≠ 0)
    (hnew : NewInst r st) (hfits : RegistersFit r) :
    ∃ n d, convertPinuopToTUop k r st = some d ∧ Expanded k r n st d ∧
      (∀ q < n, q * k.repMovMemSizeMaxNew < r.memReadSize - k.repMovMemSizeMaxNew ∧
        (parts k r).length + q * (parts k r).length < maxPup) ∧
      (r.memReadSize - k.repMovMemSizeMaxNew ≤ n * k.repMovMemSizeMaxNew ∨
        maxPup ≤ (parts k r).length + n * (parts k r).length) := by
  obtain ⟨st₁, hdecode, hstatic⟩ := decodeStatic_new (k := k) hnew hfits
  have hlen := parts_length k r
  have hentries : HasEntries r (parts k r).length st₁ := by
    intro i hi
    obtain ⟨info, hinfo, -⟩ := hstatic.entry i _ (List.getElem?_eq_getElem hi)
    rw [hinfo]
    rfl
  obtain ⟨n, st₂, hloop, hrep⟩ := repeatLoop_repetitions (k := k)
    (r.memReadSize - k.repMovMemSizeMaxNew) 1 hlen.2 hlen.1 hentries
  refine ⟨n, finish r (parts k r).length ((parts k r).length + n * (parts k r).length)
    (countUops ((parts k r).length + n * (parts k r).length) st₂), ?_, ?_, hrep.turn, hrep.stop⟩
  · unfold convertPinuopToTUop repeatMove
    rw [hdecode]
    simp only [Option.bind_eq_bind, Option.bind_some, if_pos hop, if_neg hsize, hloop,
      Option.map_some]
    rfl
  · refine Expanded.of_repetitions hstatic hrep (fun _ => rfl) rfl
      (fun j info h => finish_table r _ _ _ h)
      (fun i => (countUops_slots _ st₂ i).1.trans (finish_slots r _ _ _ i)) ?_
    intro i
    rw [finish_eom r _ _ (by omega), (countUops_slots _ st₂ i).2]
    rfl

end MacSim.Analysis
