import MacSim.Model.TraceReader

/-!
# What the CPU trace reader delivers

The records behind the first one come in chunks.  The reader takes the last record of a chunk
that is not full for the end of the trace, so the last record of a file is delivered exactly if
the records behind the first one fill whole chunks.
-/

set_option autoImplicit false

namespace MacSim.Analysis

open MacSim.Model

namespace TraceThread

variable {ρ : Type}

/-! ## The chunk buffer -/

/-- `t` records behind the first one have been read, the chunk of the next one starts behind
`c` of them. -/
structure Reading (k : TraceKnobs ρ) (s : TraceThread ρ) (t c : ℕ) : Prop where
  start : c ≤ t
  short : t < c + k.bufferSize
  whole : k.bufferSize ∣ c
  index : s.bufferIndex = t - c
  fresh : t = c → s.pos = 1 + c
  loaded : c < t → s.bufferIndexMax = min k.bufferSize (s.file.length - 1 - c) ∧
    s.pos = 1 + c + s.bufferIndexMax ∧
    ∀ i < s.bufferIndexMax, s.file[1 + c + i]? = some (s.buffer i)

/-- The state in which a record is copied out of the buffer. -/
theorem Reading.load {k : TraceKnobs ρ} {s : TraceThread ρ} {t c : ℕ} (h : Reading k s t c) :
    let s' := if s.bufferIndex = 0 then s.readChunk k else s
    s'.bufferIndexMax = min k.bufferSize (s.file.length - 1 - c) ∧
      s'.pos = 1 + c + s'.bufferIndexMax ∧
      (∀ i < s'.bufferIndexMax, s.file[1 + c + i]? = some (s'.buffer i)) ∧
      s'.bufferIndex = t - c := by
  dsimp only
  rcases Nat.eq_or_lt_of_le h.start with htc | htc
  · have hindex : s.bufferIndex = 0 := by
      rw [h.index]
      omega
    have hlen : (s.gzread k.bufferSize).length = min k.bufferSize (s.file.length - 1 - c) := by
      rw [TraceThread.gzread, List.length_take, List.length_drop, h.fresh htc.symm]
      omega
    rw [if_pos hindex]
    refine ⟨hlen, ?_, fun i hi => ?_, ?_⟩
    · change s.pos + _ = _
      rw [h.fresh htc.symm]
      rfl
    · have hi : i < (s.gzread k.bufferSize).length := hi
      have hget : (s.gzread k.bufferSize)[i]? = s.file[1 + c + i]? := by
        rw [TraceThread.gzread, List.getElem?_take_of_lt (by rw [hlen] at hi; omega),
          List.getElem?_drop, h.fresh htc.symm]
      rw [← hget]
      change _ = some ((s.gzread k.bufferSize).getD i (s.buffer i))
      rw [List.getElem?_eq_getElem hi, List.getD_eq_getElem _ _ hi]
    · exact h.index
  · have hindex : s.bufferIndex ≠ 0 := by
      rw [h.index]
      omega
    rw [if_neg hindex]
    exact ⟨(h.loaded htc).1, (h.loaded htc).2.1, (h.loaded htc).2.2, h.index⟩

/-- Reading the next record.  The record at the end of a chunk that is not full does not count
as read. -/
theorem Reading.readTrace {k : TraceKnobs ρ} {s : TraceThread ρ} {t c : ℕ} (h : Reading k s t c)
    (hended : s.traceEnded = false) (ht : t + 1 < s.file.length) :
    s.file[1 + t]? = some (s.readTrace k).2.next ∧
      ((s.readTrace k).1 = true ↔
        (s.file.length - 1) % k.bufferSize = 0 ∨ t + 2 < s.file.length) ∧
      ((s.readTrace k).1 = true → ∃ c', Reading k (s.readTrace k).2 (t + 1) c') := by
  obtain ⟨hmax, hpos, hbuf, hindex⟩ := h.load
  have hB : 0 < k.bufferSize := by have := h.short; have := h.start; omega
  have hlt : t - c < (if s.bufferIndex = 0 then s.readChunk k else s).bufferIndexMax := by
    rw [hmax]
    have := h.short
    have := h.start
    omega
  have hfile : (if s.bufferIndex = 0 then s.readChunk k else s).file = s.file := by
    split <;> rfl
  have hread : s.readTrace k = (let m := if s.bufferIndex = 0 then s.readChunk k else s
      let i := (m.bufferIndex + 1) % k.bufferSize
      (decide (i < m.bufferIndexMax), { m with
        next := m.buffer m.bufferIndex
        bufferIndex := i
        bufferExhausted := m.bufferExhausted || decide (i = 0)
        traceEnded := !decide (i < m.bufferIndexMax) })) := by
    unfold TraceThread.readTrace
    rw [if_neg (by simp [hended])]
    rfl
  generalize (if s.bufferIndex = 0 then s.readChunk k else s) = m at *
  obtain ⟨q, hq⟩ := h.whole
  have hstart := h.start
  have hshort := h.short
  rw [hread]
  dsimp only
  refine ⟨?_, ?_, fun hr => ?_⟩
  · have := hbuf (t - c) hlt
    rw [hindex, ← this]
    congr 1
    omega
  · rw [decide_eq_true_iff, hindex, hmax]
    rcases Nat.lt_or_ge (t - c + 1) k.bufferSize with hd | hd
    · rw [Nat.mod_eq_of_lt hd]
      -- inside the chunk the comparison is the one with the end of the file
      have hmod : s.file.length - 1 = t + 1 → (s.file.length - 1) % k.bufferSize ≠ 0 := by
        intro heq
        have hsum : t + 1 = t - c + 1 + k.bufferSize * q := by omega
        rw [heq, hsum, Nat.add_mul_mod_self_left, Nat.mod_eq_of_lt hd]
        omega
      constructor
      · intro hi
        right
        omega
      · rintro (hz | hi)
        · by_contra hcon
          exact hmod (by omega) hz
        · omega
    · have hd : t - c + 1 = k.bufferSize := by omega
      rw [hd, Nat.mod_self]
      refine ⟨fun _ => ?_, fun _ => by omega⟩
      by_cases hend : t + 2 < s.file.length
      · exact .inr hend
      · left
        have hsum : s.file.length - 1 = k.bufferSize * (q + 1) := by
          rw [Nat.mul_add, Nat.mul_one, ← hq]
          rw [hmax] at hlt
          omega
        rw [hsum, Nat.mul_mod_right]
  · rw [decide_eq_true_iff, hindex] at hr
    rcases Nat.lt_or_ge (t - c + 1) k.bufferSize with hd | hd
    · rw [Nat.mod_eq_of_lt hd] at hr
      refine ⟨c, by omega, by omega, ⟨q, hq⟩, ?_, by omega, fun _ => ⟨?_, hpos, ?_⟩⟩
      · dsimp only
        rw [hindex, Nat.mod_eq_of_lt hd]
        omega
      · dsimp only
        rw [hfile]
        exact hmax
      · dsimp only
        rw [hfile]
        exact hbuf
    · have hd : t - c + 1 = k.bufferSize := by omega
      refine ⟨c + k.bufferSize, by omega, by omega, ⟨q + 1, ?_⟩, ?_, fun _ => ?_, by omega⟩
      · rw [Nat.mul_add, Nat.mul_one, ← hq]
      · dsimp only
        rw [hindex, hd, Nat.mod_self]
        omega
      · dsimp only
        rw [hpos]
        omega

/-- At the end of the file the trace has ended. -/
theorem Reading.readTrace_end {k : TraceKnobs ρ} {s : TraceThread ρ} {t : ℕ}
    (h : Reading k s t t) (hended : s.traceEnded = false) (ht : s.file.length = t + 1) :
    (s.readTrace k).1 = false ∧ (s.readTrace k).2.traceEnded = true := by
  have hindex : s.bufferIndex = 0 := by
    rw [h.index]
    omega
  have hempty : (s.gzread k.bufferSize).length = 0 := by
    rw [TraceThread.gzread, List.length_take, List.length_drop, h.fresh rfl]
    omega
  have hread : (s.readTrace k).1 = false := by
    unfold TraceThread.readTrace
    rw [if_neg (by simp [hended]), if_pos hindex]
    simp [TraceThread.advanceBuffer, TraceThread.readChunk, hempty]
  refine ⟨hread, ?_⟩
  have hsame : (s.readTrace k).2.traceEnded = !(s.readTrace k).1 := by
    unfold TraceThread.readTrace
    rw [if_neg (by simp [hended])]
  rw [hsame, hread]
  rfl

/-! ## One instruction -/

/-- Reading ahead changes the reader only. -/
theorem readAhead_fields (k : TraceKnobs ρ) (s : TraceThread ρ) :
    ∃ pos buffer index indexMax exhausted next ended, (s.readAhead k).2 =
      { s with
        pos := pos, buffer := buffer, bufferIndex := index, bufferIndexMax := indexMax
        bufferExhausted := exhausted, next := next, traceEnded := ended } := by
  unfold TraceThread.readAhead TraceThread.readTrace
  split
  · split
    · exact ⟨_, _, _, _, _, _, _, rfl⟩
    · dsimp only
      split
      · exact ⟨_, _, _, _, _, _, _, rfl⟩
      · exact ⟨_, _, _, _, _, _, _, rfl⟩
  · exact ⟨_, _, _, _, _, _, _, rfl⟩

/-- What the conversion of the next record adds. -/
theorem nextInst_fields (k : TraceKnobs ρ) (s : TraceThread ρ) :
    (s.nextInst k).file = s.file ∧ (s.nextInst k).sent = s.sent ∧
      (s.nextInst k).converted = s.converted ++ [(s.prev, k.instAddr (s.readAhead k).2.next)] ∧
      (s.nextInst k).numUop = k.extraUops (s.nextInst k).converted + 1 ∧
      (s.nextInst k).numSendingUop = 0 ∧ (s.nextInst k).traceEnded = (s.readAhead k).2.traceEnded ∧
      (s.nextInst k).prev = (s.readAhead k).2.next := by
  obtain ⟨_, _, _, _, _, _, _, heq⟩ := readAhead_fields k s
  unfold TraceThread.nextInst
  rw [heq]
  exact ⟨rfl, rfl, rfl, rfl, rfl, rfl, rfl⟩

/-- The rest of the uops of an instruction: the last one ends the fetch if the trace has
ended. -/
theorem sendRest (k : TraceKnobs ρ) (m : ℕ) {s : TraceThread ρ}
    (hnum : s.numUop = s.numSendingUop + m + 1) : ∃ l b,
    (TraceThread.cpuGetUop k)^[m] s.sendUop =
      { s with
        numSendingUop := s.numUop
        bom := true
        fetchEnded := s.traceEnded
        sent := s.sent ++ l ++ [⟨s.converted.length, b, true, s.traceEnded⟩] } ∧
      ∀ u ∈ l, u.instNum = s.converted.length ∧ u.isitEOM = false ∧ u.lastUop = false := by
  induction m generalizing s with
  | zero =>
      refine ⟨[], s.bom, ?_, by simp⟩
      simp [TraceThread.sendUop, hnum]
  | succ m ih =>
      have heom : ¬ s.numSendingUop + 1 = s.numUop := by omega
      have hsend : s.sendUop = { s with
          numSendingUop := s.numSendingUop + 1
          bom := false
          fetchEnded := false
          sent := s.sent ++ [⟨s.converted.length, s.bom, false, false⟩] } := by
        simp [TraceThread.sendUop, heom]
      have hstep : TraceThread.cpuGetUop k s.sendUop = s.sendUop.sendUop := by
        rw [TraceThread.cpuGetUop, hsend]
        simp
      have hnum' : s.sendUop.numUop = s.sendUop.numSendingUop + m + 1 := by
        rw [hsend]
        change s.numUop = s.numSendingUop + 1 + m + 1
        omega
      obtain ⟨l, b, heq, hl⟩ := ih hnum'
      rw [Function.iterate_succ_apply, hstep, heq, hsend]
      refine ⟨⟨s.converted.length, s.bom, false, false⟩ :: l, b, ?_, ?_⟩
      · simp
      · intro u hu
        rcases List.mem_cons.mp hu with rfl | hu
        · exact ⟨rfl, rfl, rfl⟩
        · have := hl u hu
          rw [hsend] at this
          exact this

/-- One instruction is converted and its uops are sent. -/
theorem sendInst (k : TraceKnobs ρ) {s : TraceThread ρ} (hbom : s.bom = true)
    (hfetch : s.fetchEnded = false) : ∃ m l b,
    (TraceThread.cpuGetUop k)^[m] s =
      { s.nextInst k with
        numSendingUop := (s.nextInst k).numUop
        bom := true
        fetchEnded := (s.nextInst k).traceEnded
        sent := s.sent ++ l ++
          [⟨(s.nextInst k).converted.length, b, true, (s.nextInst k).traceEnded⟩] } ∧
      ∀ u ∈ l, u.instNum = (s.nextInst k).converted.length ∧ u.isitEOM = false ∧
        u.lastUop = false := by
  obtain ⟨-, hsent, -, hnum, hzero, -, -⟩ := nextInst_fields k s
  obtain ⟨l, b, heq, hl⟩ := sendRest k (k.extraUops (s.nextInst k).converted)
    (s := s.nextInst k) (by omega)
  have hfirst : TraceThread.cpuGetUop k s = (s.nextInst k).sendUop := by
    rw [TraceThread.cpuGetUop, if_neg (by simp [hfetch]), if_pos hbom]
  refine ⟨k.extraUops (s.nextInst k).converted + 1, l, b, ?_, hl⟩
  rw [Function.iterate_succ_apply, hfirst, heq, hsent]

/-- `t` records have been delivered and the trace goes on. -/
structure AtInst (k : TraceKnobs ρ) (file : List ρ) (s : TraceThread ρ) (t : ℕ) : Prop where
  file_eq : s.file = file
  reading : ∃ c, Reading k s t c
  bom : s.bom = true
  running : s.traceEnded = false ∧ s.fetchEnded = false
  prev : file[t]? = some s.prev
  fetched : s.instFetched = t
  records : s.converted.map (·.1) = file.take t
  nextAddr : s.converted.map (·.2) = (file.tail.map k.instAddr).take t
  sent : ∀ u ∈ s.sent, u.instNum ≤ t ∧ u.lastUop = false

/-- After the set-up the reader is at the first record. -/
theorem AtInst.setup {k : TraceKnobs ρ} (hB : 0 < k.bufferSize) {file : List ρ} (junk : ρ)
    (hne : file ≠ []) : AtInst k file (TraceThread.setup file junk) 0 where
  file_eq := rfl
  reading := by
    have hlen := List.length_pos_of_ne_nil hne
    refine ⟨0, le_rfl, by omega, Nat.dvd_zero _, rfl, fun _ => ?_, by omega⟩
    change min 1 file.length = 1 + 0
    omega
  bom := rfl
  running := ⟨rfl, rfl⟩
  prev := by
    cases file with
    | nil => exact absurd rfl hne
    | cons r rest => rfl
  fetched := rfl
  records := by simp [TraceThread.setup]
  nextAddr := by simp [TraceThread.setup]
  sent := by simp [TraceThread.setup]

/-- The next record is converted. -/
theorem AtInst.converted {k : TraceKnobs ρ} {file : List ρ} {s : TraceThread ρ} {t : ℕ}
    (h : AtInst k file s t) :
    (s.nextInst k).file = file ∧
      (s.nextInst k).converted.map (·.1) = file.take (t + 1) ∧
      (s.nextInst k).converted.length = t + 1 := by
  obtain ⟨hf, -, hc, -⟩ := nextInst_fields k s
  have hrec : (s.nextInst k).converted.map (·.1) = file.take (t + 1) := by
    rw [hc, List.map_append, h.records, List.take_add_one, h.prev]
    rfl
  refine ⟨hf.trans h.file_eq, hrec, ?_⟩
  have hlt : t < file.length := (List.getElem?_eq_some_iff.mp h.prev).1
  have := congrArg List.length hrec
  rw [List.length_map, List.length_take] at this
  omega

/-- At a record, reading ahead is reading the next record. -/
theorem AtInst.readAhead {k : TraceKnobs ρ} {file : List ρ} {s : TraceThread ρ} {t : ℕ}
    (h : AtInst k file s t) (hmax : file.length ≤ k.maxInsts) : s.readAhead k = s.readTrace k := by
  have hlt : t < file.length := (List.getElem?_eq_some_iff.mp h.prev).1
  unfold TraceThread.readAhead
  rw [if_pos (by rw [h.fetched]; omega)]

/-- An instruction behind which a record was read: the trace goes on. -/
theorem AtInst.next {k : TraceKnobs ρ} {file : List ρ} {s : TraceThread ρ} {t : ℕ}
    (h : AtInst k file s t) (hmax : file.length ≤ k.maxInsts) (ht : t + 1 < file.length)
    (hread : (file.length - 1) % k.bufferSize = 0 ∨ t + 2 < file.length) :
    ∃ m, AtInst k file ((TraceThread.cpuGetUop k)^[m] s) (t + 1) := by
  obtain ⟨c, hc⟩ := h.reading
  have hahead := h.readAhead hmax
  obtain ⟨hnext, hiff, hgo⟩ := hc.readTrace h.running.1 (by rw [h.file_eq]; exact ht)
  rw [h.file_eq] at hnext hiff
  have hr := hiff.mpr hread
  obtain ⟨c', hc'⟩ := hgo hr
  have hended : (s.nextInst k).traceEnded = false := by
    have hsame : (s.readTrace k).2.traceEnded = !(s.readTrace k).1 := by
      unfold TraceThread.readTrace
      rw [if_neg (by simp [h.running.1])]
    rw [(nextInst_fields k s).2.2.2.2.2.1, hahead, hsame, hr]
    rfl
  obtain ⟨hf, hrec, hlen⟩ := h.converted
  obtain ⟨-, -, hconv, -, -, -, hprev⟩ := nextInst_fields k s
  rw [hahead] at hconv hprev
  obtain ⟨m, l, b, heq, hl⟩ := sendInst k h.bom h.running.2
  refine ⟨m, ?_⟩
  rw [heq, hended]
  have hfields : (s.nextInst k).bufferIndex = (s.readTrace k).2.bufferIndex ∧
      (s.nextInst k).bufferIndexMax = (s.readTrace k).2.bufferIndexMax ∧
      (s.nextInst k).pos = (s.readTrace k).2.pos ∧
      (s.nextInst k).buffer = (s.readTrace k).2.buffer ∧
      (s.nextInst k).instFetched = t + 1 ∧ (s.readTrace k).2.file = (s.nextInst k).file := by
    have hfetched : (s.readTrace k).2.instFetched = t := by
      obtain ⟨_, _, _, _, _, _, _, hra⟩ := readAhead_fields k s
      rw [← hahead, hra]
      exact h.fetched
    unfold TraceThread.nextInst
    rw [hahead]
    refine ⟨rfl, rfl, rfl, rfl, ?_, rfl⟩
    simp [TraceThread.convertPrev, hr, hfetched]
  obtain ⟨hi, him, hp, hb, hfe, hfl⟩ := hfields
  exact
    { file_eq := hf
      reading := ⟨c',
        { start := hc'.start
          short := hc'.short
          whole := hc'.whole
          index := hi.trans hc'.index
          fresh := fun e => hp.trans (hc'.fresh e)
          loaded := fun e => by
            obtain ⟨h₁, h₂, h₃⟩ := hc'.loaded e
            rw [hfl] at h₁ h₃
            dsimp only
            rw [him, hp, hb]
            exact ⟨h₁, h₂, h₃⟩ }⟩
      bom := rfl
      running := ⟨hended, rfl⟩
      prev := by
        rw [hprev, ← hnext, Nat.add_comm]
      fetched := hfe
      records := hrec
      nextAddr := by
        have hget : (file.tail.map k.instAddr)[t]? = some (k.instAddr (s.readTrace k).2.next) := by
          rw [List.getElem?_map, List.getElem?_tail, Nat.add_comm t 1, hnext]
          rfl
        change (s.nextInst k).converted.map _ = _
        rw [hconv, List.map_append, h.nextAddr, List.take_add_one, hget]
        rfl
      sent := by
        intro u hu
        change u ∈ s.sent ++ l ++ [_] at hu
        simp only [List.mem_append, List.mem_singleton] at hu
        rcases hu with (hu | hu) | rfl
        · have := h.sent u hu
          exact ⟨by omega, this.2⟩
        · have := hl u hu
          rw [hlen] at this
          exact ⟨by omega, this.2.2⟩
        · rw [hlen]
          exact ⟨le_rfl, rfl⟩ }

/-- The fetch has ended after `t` records. -/
structure Delivered (k : TraceKnobs ρ) (file : List ρ) (s : TraceThread ρ) (t : ℕ) : Prop where
  file_eq : s.file = file
  ended : s.fetchEnded = true
  records : s.converted.map (·.1) = file.take t
  nextAddr : s.converted.dropLast.map (·.2) = (file.tail.map k.instAddr).take (t - 1)
  lastUop : ∃ init b, s.sent = init ++ [⟨t, b, true, true⟩] ∧
    ∀ u ∈ init, u.lastUop = false ∧ (u.instNum = t → u.isitEOM = false)

/-- An instruction behind which no record counts as read is the last one. -/
theorem AtInst.last {k : TraceKnobs ρ} {file : List ρ} {s : TraceThread ρ} {t : ℕ}
    (h : AtInst k file s t) (hended : (s.nextInst k).traceEnded = true) :
    ∃ m, Delivered k file ((TraceThread.cpuGetUop k)^[m] s) (t + 1) := by
  obtain ⟨hf, hrec, hlen⟩ := h.converted
  obtain ⟨-, -, hconv, -⟩ := nextInst_fields k s
  obtain ⟨m, l, b, heq, hl⟩ := sendInst k h.bom h.running.2
  refine ⟨m, ?_⟩
  rw [heq, hended]
  refine ⟨hf, rfl, hrec, ?_, s.sent ++ l, b, by simp [hlen], fun u hu => ?_⟩
  · change (s.nextInst k).converted.dropLast.map _ = _
    rw [hconv, List.dropLast_concat]
    exact h.nextAddr
  · rcases List.mem_append.mp hu with hu | hu
    · have := h.sent u hu
      exact ⟨this.2, fun he => by omega⟩
    · exact ⟨(hl u hu).2.2, fun _ => (hl u hu).2.1⟩

/-! ## The whole trace -/

/-- The number of records that are delivered. -/
def deliveredCount (k : TraceKnobs ρ) (file : List ρ) : ℕ :=
  if (file.length - 1) % k.bufferSize = 0 then file.length else file.length - 1

/-- Of a trace that is not empty something is delivered, and no more than it has. -/
theorem deliveredCount_pos (k : TraceKnobs ρ) {file : List ρ} (hne : file ≠ []) :
    0 < deliveredCount k file ∧ deliveredCount k file ≤ file.length := by
  have hlen := List.length_pos_of_ne_nil hne
  unfold deliveredCount
  split
  · exact ⟨hlen, le_rfl⟩
  · rename_i hz
    have hne : file.length - 1 ≠ 0 := fun he => hz (by rw [he, Nat.zero_mod])
    omega

/-- Every record that is delivered is reached. -/
theorem AtInst.reach {k : TraceKnobs ρ} {file : List ρ} {s : TraceThread ρ}
    (h : AtInst k file s 0) (hmax : file.length ≤ k.maxInsts) (t : ℕ)
    (ht : t < deliveredCount k file) :
    ∃ m, AtInst k file ((TraceThread.cpuGetUop k)^[m] s) t := by
  induction t with
  | zero => exact ⟨0, h⟩
  | succ t ih =>
      obtain ⟨m, hm⟩ := ih (by omega)
      have hgo : t + 1 < file.length ∧
          ((file.length - 1) % k.bufferSize = 0 ∨ t + 2 < file.length) := by
        unfold deliveredCount at ht
        split at ht
        · rename_i hz
          exact ⟨ht, .inl hz⟩
        · exact ⟨by omega, .inr (by omega)⟩
      obtain ⟨m', hm'⟩ := hm.next hmax hgo.1 hgo.2
      exact ⟨m' + m, by rwa [Function.iterate_add_apply]⟩

/-- The trace ends behind the last record that is delivered. -/
theorem AtInst.ends {k : TraceKnobs ρ} {file : List ρ} {s : TraceThread ρ} {t : ℕ}
    (h : AtInst k file s t) (hmax : file.length ≤ k.maxInsts)
    (ht : t + 1 = deliveredCount k file) : (s.nextInst k).traceEnded = true := by
  obtain ⟨c, hc⟩ := h.reading
  have hlt : t < file.length := (List.getElem?_eq_some_iff.mp h.prev).1
  rw [(nextInst_fields k s).2.2.2.2.2.1, h.readAhead hmax]
  unfold deliveredCount at ht
  split at ht
  · rename_i hz
    have hdvd : k.bufferSize ∣ t := by
      have : file.length - 1 = t := by omega
      rw [← this]
      exact Nat.dvd_of_mod_eq_zero hz
    have hct : c = t := by
      obtain ⟨q, hq⟩ := (Nat.dvd_sub hdvd hc.whole : k.bufferSize ∣ t - c)
      have := hc.short
      have := hc.start
      cases q with
      | zero => omega
      | succ q =>
          rw [Nat.mul_add, Nat.mul_one] at hq
          omega
    subst hct
    exact (hc.readTrace_end h.running.1 (by rw [h.file_eq]; omega)).2
  · rename_i hz
    have hlt' : t + 1 < s.file.length := by
      rw [h.file_eq]
      omega
    obtain ⟨-, hiff, -⟩ := hc.readTrace h.running.1 hlt'
    rw [h.file_eq] at hiff
    have hread : (s.readTrace k).1 = false := by
      by_contra hcon
      rcases hiff.mp (by simpa using hcon) with hz' | hlt''
      · exact hz hz'
      · omega
    have hsame : (s.readTrace k).2.traceEnded = !(s.readTrace k).1 := by
      unfold TraceThread.readTrace
      rw [if_neg (by simp [h.running.1])]
    rw [hsame, hread]
    rfl

/-- The reader delivers a prefix of the trace and then stays where it is. -/
theorem delivered (k : TraceKnobs ρ) (hB : 0 < k.bufferSize) (file : List ρ) (junk : ρ)
    (hne : file ≠ []) (hmax : file.length ≤ k.maxInsts) : ∃ m, Delivered k file
      ((TraceThread.cpuGetUop k)^[m] (TraceThread.setup file junk)) (deliveredCount k file) := by
  have hstart := AtInst.setup (k := k) hB junk hne
  have hpos := (deliveredCount_pos k hne).1
  obtain ⟨m, hm⟩ := hstart.reach hmax (deliveredCount k file - 1) (by omega)
  obtain ⟨m', hm'⟩ := hm.last (hm.ends hmax (by omega))
  refine ⟨m' + m, ?_⟩
  rw [Function.iterate_add_apply]
  rwa [Nat.sub_add_cancel hpos] at hm'

/-- A reader that has ended stays as it is. -/
theorem iterate_of_ended {k : TraceKnobs ρ} {s : TraceThread ρ} (h : s.fetchEnded = true) (m : ℕ) :
    (TraceThread.cpuGetUop k)^[m] s = s := by
  induction m with
  | zero => rfl
  | succ m ih =>
      rw [Function.iterate_succ_apply', ih, TraceThread.cpuGetUop, if_pos h]

/-- Two calls at which the fetch has ended leave the same state. -/
theorem ended_unique {k : TraceKnobs ρ} {s : TraceThread ρ} {m m' : ℕ}
    (h : ((TraceThread.cpuGetUop k)^[m] s).fetchEnded = true)
    (h' : ((TraceThread.cpuGetUop k)^[m'] s).fetchEnded = true) :
    (TraceThread.cpuGetUop k)^[m] s = (TraceThread.cpuGetUop k)^[m'] s := by
  rcases Nat.le_total m m' with hle | hle
  · obtain ⟨d, rfl⟩ := Nat.exists_eq_add_of_le' hle
    rw [Function.iterate_add_apply, iterate_of_ended h]
  · obtain ⟨d, rfl⟩ := Nat.exists_eq_add_of_le' hle
    rw [Function.iterate_add_apply, iterate_of_ended h']

/-- The whole trace has been delivered: the records in order, each but the last with the address
of the next one, and the last uop is the one at the end of the last record. -/
structure WholeTrace (k : TraceKnobs ρ) (file : List ρ) (s : TraceThread ρ) : Prop where
  ended : s.fetchEnded = true
  records : s.converted.map (·.1) = file
  nextAddr : s.converted.dropLast.map (·.2) = file.tail.map k.instAddr
  lastUop : ∀ u ∈ s.sent, u.lastUop = true ↔ u.instNum = file.length ∧ u.isitEOM = true
  sentLast : ∃ u ∈ s.sent, u.lastUop = true

/-- The calls of `get_uops_from_traces` deliver the whole trace exactly if the records behind
the first one fill whole chunks. -/
theorem cpu_trace_delivered_iff (k : TraceKnobs ρ) (hB : 0 < k.bufferSize) (file : List ρ)
    (junk : ρ) (hne : file ≠ []) (hmax : file.length ≤ k.maxInsts) :
    (∃ m, WholeTrace k file
        ((TraceThread.cpuGetUop k)^[m] (TraceThread.setup file junk))) ↔
      (file.length - 1) % k.bufferSize = 0 := by
  have hlen := List.length_pos_of_ne_nil hne
  obtain ⟨m, hm⟩ := delivered k hB file junk hne hmax
  constructor
  · rintro ⟨m', hm'⟩
    have hsame := ended_unique hm'.ended hm.ended
    have hrec := hm'.records
    rw [hsame, hm.records] at hrec
    have hcount := congrArg List.length hrec
    rw [List.length_take] at hcount
    by_contra hz
    unfold deliveredCount at hcount
    rw [if_neg hz] at hcount
    omega
  · intro hz
    have hcount : deliveredCount k file = file.length := by
      unfold deliveredCount
      rw [if_pos hz]
    rw [hcount] at hm
    obtain ⟨init, b, hsent, hinit⟩ := hm.lastUop
    refine ⟨m, hm.ended, ?_, ?_, fun u hu => ?_, ⟨file.length, b, true, true⟩, ?_, rfl⟩
    · rw [hm.records, List.take_length]
    · rw [hm.nextAddr, List.take_of_length_le (by simp)]
    · rw [hsent] at hu
      rcases List.mem_append.mp hu with hu | hu
      · have := hinit u hu
        constructor
        · intro hl
          rw [this.1] at hl
          cases hl
        · intro hc
          rw [this.2 hc.1] at hc
          cases hc.2
      · obtain rfl := List.mem_singleton.mp hu
        exact ⟨fun _ => ⟨rfl, rfl⟩, fun _ => rfl⟩
    · rw [hsent]
      exact List.mem_append_right _ (List.mem_singleton.mpr rfl)

/-- Records that are their own addresses, one uop each. -/
def plainKnobs (bufferSize : ℕ) : TraceKnobs ℕ where
  bufferSize := bufferSize
  maxInsts := 1000000
  instAddr := fun r => BitVec.ofNat 64 r
  extraUops := fun _ => 0

/-- Two records with a buffer of one. -/
theorem cpu_trace_delivered_iff_two_records :
    (∃ m, WholeTrace (plainKnobs 1) [10, 20]
        ((TraceThread.cpuGetUop (plainKnobs 1))^[m] (TraceThread.setup [10, 20] 0))) ↔
      ([10, 20].length - 1) % 1 = 0 :=
  cpu_trace_delivered_iff (plainKnobs 1) (by decide) [10, 20] 0 (by decide) (by decide)

/-- With the buffer of the source the second of two records is never delivered: the first one
carries the last uop. -/
theorem cpu_trace_drops_last_record : ¬ ∃ m, WholeTrace (plainKnobs 1000) [10, 20]
    ((TraceThread.cpuGetUop (plainKnobs 1000))^[m] (TraceThread.setup [10, 20] 0)) := by
  rintro ⟨m, hm⟩
  have hended : ((TraceThread.cpuGetUop (plainKnobs 1000))^[1]
      (TraceThread.setup [10, 20] 0)).fetchEnded = true := rfl
  have hrec := hm.records
  rw [ended_unique hm.ended hended] at hrec
  have hone : ((TraceThread.cpuGetUop (plainKnobs 1000))^[1]
      (TraceThread.setup [10, 20] 0)).converted.map (·.1) = [10] := rfl
  rw [hone] at hrec
  cases hrec

end TraceThread

end MacSim.Analysis
