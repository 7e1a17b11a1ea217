import MacSim.Analysis.GpuStream

/-!
# The lane records of a memory instruction

The loop over the lanes reads as many records as the addresses of the lanes behind lane 0 fill,
and no more than one record behind them.  `collectedLines` is what it collects, as a fold over
the lanes.
-/

set_option autoImplicit false

namespace MacSim.Analysis

open MacSim.Model

namespace GpuKnobs

variable {ρ : Type}

/-- The records that `j` lane addresses fill. -/
def recordsOf (g : GpuKnobs ρ) (j : ℕ) : ℕ := (j + g.addrPerTraceInst - 1) / g.addrPerTraceInst

/-- The lane records of a memory instruction. -/
def laneRecords (g : GpuKnobs ρ) : ℕ := recordsOf g (g.warpSize - 1)

/-- The address of lane `j + 1`. -/
def laneAt (g : GpuKnobs ρ) (lanes : List ρ) (j : ℕ) : Addr :=
  match lanes[j / g.addrPerTraceInst]? with
  | some r => g.laneAddr r (j % g.addrPerTraceInst)
  | none => 0

/-- The lines collected after lane 0 and `j` more. -/
def collectedLines (g : GpuKnobs ρ) (r : ρ) (lanes : List ρ) (j : ℕ) : List Addr :=
  ((List.range j).map fun i => g.laneLines r (laneAt g lanes i)).foldl GpuKnobs.collect
    (GpuKnobs.collect [] (g.uopLines r))

/-- One more lane adds its lines to those collected. -/
theorem collectedLines_succ (g : GpuKnobs ρ) (r : ρ) (lanes : List ρ) (j : ℕ) :
    collectedLines g r lanes (j + 1) =
      GpuKnobs.collect (collectedLines g r lanes j) (g.laneLines r (laneAt g lanes j)) := by
  simp [collectedLines, List.range_succ]

/-- No addresses make no record. -/
theorem recordsOf_zero (g : GpuKnobs ρ) (hA : 0 < g.addrPerTraceInst) : recordsOf g 0 = 0 := by
  unfold recordsOf
  exact Nat.div_eq_of_lt (by omega)

/-- The next lane is in a new record or in the last one that was read. -/
theorem recordsOf_succ (g : GpuKnobs ρ) (hA : 0 < g.addrPerTraceInst) (j : ℕ) :
    recordsOf g (j + 1) = j / g.addrPerTraceInst + 1 ∧
      recordsOf g j =
        if j % g.addrPerTraceInst = 0 then j / g.addrPerTraceInst
        else j / g.addrPerTraceInst + 1 := by
  unfold recordsOf
  have hdiv := Nat.div_add_mod j g.addrPerTraceInst
  have hlt := Nat.mod_lt j hA
  generalize j / g.addrPerTraceInst = q at *
  generalize j % g.addrPerTraceInst = m at *
  subst hdiv
  constructor
  · have hsum : g.addrPerTraceInst * q + m + 1 + g.addrPerTraceInst - 1 =
        m + g.addrPerTraceInst * (q + 1) := by
      rw [Nat.mul_add]
      omega
    rw [hsum, Nat.add_mul_div_left _ _ hA, Nat.div_eq_of_lt hlt, Nat.zero_add]
  · by_cases hm : m = 0
    · subst hm
      have hsum : g.addrPerTraceInst * q + 0 + g.addrPerTraceInst - 1 =
          (g.addrPerTraceInst - 1) + g.addrPerTraceInst * q := by omega
      rw [if_pos rfl, hsum, Nat.add_mul_div_left _ _ hA, Nat.div_eq_of_lt (by omega),
        Nat.zero_add]
    · have hsum : g.addrPerTraceInst * q + m + g.addrPerTraceInst - 1 =
          (m - 1) + g.addrPerTraceInst * (q + 1) := by
        rw [Nat.mul_add]
        omega
      rw [if_neg hm, hsum, Nat.add_mul_div_left _ _ hA, Nat.div_eq_of_lt (by omega),
        Nat.zero_add]

/-- The number of records grows with the lanes. -/
theorem recordsOf_mono (g : GpuKnobs ρ) {i j : ℕ} (h : i ≤ j) : recordsOf g i ≤ recordsOf g j :=
  Nat.div_le_div_right (by omega)

/-- Peeking changes where the reader stands, nothing else. -/
def SameLog (t s : TraceThread ρ) : Prop :=
  ∃ pos index exhausted, s =
    { t with pos := pos, bufferIndex := index, bufferExhausted := exhausted }

/-- A reader has the same log as itself. -/
theorem SameLog.refl (s : TraceThread ρ) : SameLog s s := ⟨_, _, _, rfl⟩

/-- Having the same log passes from one reader to the next. -/
theorem SameLog.trans {s t u : TraceThread ρ} (h : SameLog s t) (h' : SameLog t u) :
    SameLog s u := by
  obtain ⟨_, _, _, rfl⟩ := h
  obtain ⟨_, _, _, rfl⟩ := h'
  exact ⟨_, _, _, rfl⟩

/-- Looking at the next record adds nothing to the log. -/
theorem SameLog.peekTrace (k : TraceKnobs ρ) (s : TraceThread ρ) (old : ρ) :
    SameLog s (s.peekTrace k old).2.2 := by
  unfold TraceThread.peekTrace
  split
  · split
    · exact SameLog.refl s
    · exact ⟨_, _, _, rfl⟩
  · exact ⟨_, _, _, rfl⟩

/-- The loop after `j` lanes behind lane 0. -/
structure AfterLanes (g : GpuKnobs ρ) (r : ρ) (t : TraceThread ρ) (lanes : List ρ) (p : ℕ)
    (place : Option ℕ) (j : ℕ) (l : GpuKnobs.LaneState ρ) : Prop where
  stream : TraceThread.Stream g.toTraceKnobs l.thread (p + recordsOf g j)
    ((TraceThread.nextPlace g.bufferSize)^[recordsOf g j] place)
  log : SameLog t l.thread
  info : j % g.addrPerTraceInst ≠ 0 → lanes[j / g.addrPerTraceInst]? = some l.traceInfo
  read : l.lanes = lanes.take (recordsOf g j)
  seen : GpuKnobs.collect l.seen l.lines = collectedLines g r lanes j

/-- The lane record of the next lane is at hand. -/
theorem AfterLanes.peekLane {g : GpuKnobs ρ} {r : ρ} {t : TraceThread ρ} {lanes : List ρ}
    {p j : ℕ} {place : Option ℕ} {l : GpuKnobs.LaneState ρ} (hA : 0 < g.addrPerTraceInst)
    (h : AfterLanes g r t lanes p place j l)
    (hfile : ∀ i < lanes.length, t.file[p + i]? = lanes[i]?)
    (hlen : recordsOf g (j + 1) ≤ lanes.length) (hmore : p + lanes.length < t.file.length) :
    ∃ l', g.peekLane (j + 1) { l with seen := GpuKnobs.collect l.seen l.lines } = some l' ∧
      l'.seen = collectedLines g r lanes j ∧ SameLog t l'.thread ∧
      TraceThread.Stream g.toTraceKnobs l'.thread (p + recordsOf g (j + 1))
        ((TraceThread.nextPlace g.bufferSize)^[recordsOf g (j + 1)] place) ∧
      lanes[j / g.addrPerTraceInst]? = some l'.traceInfo ∧
      l'.lanes = lanes.take (recordsOf g (j + 1)) := by
  obtain ⟨hnew, hold⟩ := recordsOf_succ g hA j
  unfold GpuKnobs.peekLane
  rw [Nat.add_sub_cancel]
  by_cases hj : j % g.addrPerTraceInst = 0
  · rw [if_pos hj] at hold ⊢
    have hq : recordsOf g (j + 1) = recordsOf g j + 1 := by omega
    have hstream := h.stream
    have hthread : l.thread.file = t.file := by
      obtain ⟨_, _, _, heq⟩ := h.log
      rw [heq]
    have hlt : p + recordsOf g j < l.thread.file.length := by
      rw [hthread]
      omega
    obtain ⟨hrec, hiff, hgo⟩ := hstream.peekTrace l.traceInfo hlt
    have hread := hiff.mpr fun hcut => by
      have := hcut.1
      rw [hthread] at this
      omega
    rw [hthread, hfile _ (by omega)] at hrec
    refine ⟨_, if_pos hread, h.seen, h.log.trans (SameLog.peekTrace _ _ _), ?_, ?_, ?_⟩
    · rw [hq, Function.iterate_succ_apply']
      exact hgo hread
    · rw [← hold]
      exact hrec
    · dsimp only
      rw [h.read, hq, List.take_add_one, hrec]
      rfl
  · rw [if_neg hj] at hold ⊢
    have hq : recordsOf g (j + 1) = recordsOf g j := by omega
    refine ⟨_, rfl, h.seen, h.log, ?_, h.info hj, ?_⟩
    · rw [hq]
      exact h.stream
    · rw [hq]
      exact h.read

/-- A round for a lane behind lane 0. -/
theorem laneLoop_lane (g : GpuKnobs ρ) (r : ρ) (fuel readAddr : ℕ) (l : GpuKnobs.LaneState ρ) :
    g.laneLoop r (fuel + 1) readAddr false l =
      (g.peekLane readAddr { l with seen := GpuKnobs.collect l.seen l.lines }).bind fun l =>
        g.laneLoop r fuel (readAddr + 1) (readAddr + 1 = g.warpSize)
          (g.unpackLane r readAddr l) := rfl

/-- The loop reads the lane records and collects the lines of all lanes. -/
theorem laneLoop_reads {g : GpuKnobs ρ} {r : ρ} {t : TraceThread ρ} {lanes : List ρ} {p : ℕ}
    {place : Option ℕ} (hA : 0 < g.addrPerTraceInst)
    (hfile : ∀ i < lanes.length, t.file[p + i]? = lanes[i]?)
    (hlen : lanes.length = laneRecords g) (hmore : p + lanes.length < t.file.length)
    (m j : ℕ) (hj : j + m + 1 = g.warpSize) {l : GpuKnobs.LaneState ρ}
    (h : AfterLanes g r t lanes p place j l) :
    ∃ l', g.laneLoop r (m + 1) (j + 1) (decide (m = 0)) l = some (g.peekNext l') ∧
      l'.seen = collectedLines g r lanes (g.warpSize - 1) ∧ l'.lanes = lanes ∧
      SameLog t l'.thread ∧
      TraceThread.Stream g.toTraceKnobs l'.thread (p + lanes.length)
        ((TraceThread.nextPlace g.bufferSize)^[lanes.length] place) := by
  induction m generalizing j l with
  | zero =>
      have hj' : g.warpSize - 1 = j := by omega
      have hrecords : recordsOf g j = lanes.length := by
        rw [hlen, laneRecords, hj']
      have hstream := h.stream
      rw [hrecords] at hstream
      refine ⟨_, rfl, ?_, ?_, h.log, hstream⟩
      · rw [hj']
        exact h.seen
      · dsimp only
        rw [h.read, hrecords, List.take_length]
  | succ m ih =>
      obtain ⟨hrecords, -⟩ := recordsOf_succ g hA j
      have hle : recordsOf g (j + 1) ≤ lanes.length := by
        rw [hlen]
        exact recordsOf_mono g (by omega)
      obtain ⟨l₁, hpeek, hseen, hlog, hstream, hinfo, hlanes⟩ := h.peekLane hA hfile hle hmore
      have hround : AfterLanes g r t lanes p place (j + 1) (g.unpackLane r (j + 1) l₁) :=
        { stream := hstream
          log := hlog
          info := fun hnew => by
            change lanes[(j + 1) / g.addrPerTraceInst]? = some l₁.traceInfo
            rw [← hinfo]
            congr 1
            exact Nat.succ_div_of_not_dvd fun hdvd => hnew (Nat.mod_eq_zero_of_dvd hdvd)
          read := hlanes
          seen := by
            rw [collectedLines_succ, laneAt, hinfo]
            change GpuKnobs.collect l₁.seen _ = _
            rw [hseen]
            rfl }
      obtain ⟨l', hrest, hdone⟩ := ih (j + 1) (by omega) hround
      refine ⟨l', ?_, hdone⟩
      have hlast : decide (j + 1 + 1 = g.warpSize) = decide (m = 0) :=
        decide_eq_decide.mpr (by omega)
      have hmoreLanes : decide (m + 1 = 0) = false := decide_eq_false (Nat.succ_ne_zero m)
      rw [hmoreLanes, laneLoop_lane, hpeek, Option.bind_some, hlast, hrest]

end GpuKnobs

end MacSim.Analysis
