import MacSim.Analysis.LaneRecords

/-!
# The trace stream of a warp stays aligned

A trace file is a list of groups: the record of an instruction and the lane records behind it.
`Good` says which files the decoder reads as they were written.  It follows the place of the
reader in the buffer: the record that is read at a place before the end of the buffer and is the
last one of the file counts as missing.
-/

set_option autoImplicit false

namespace MacSim.Analysis

open MacSim.Model

namespace GpuKnobs

variable {ρ : Type}

/-! ## Files -/

/-- The records of the groups. -/
def flat (groups : List (ρ × List ρ)) : List ρ := groups.flatMap fun x => x.1 :: x.2

/-- A memory instruction has its lane records, another one has none. -/
def WellFormed (g : GpuKnobs ρ) (groups : List (ρ × List ρ)) : Prop :=
  ∀ x ∈ groups, x.2.length = if g.isMem x.1 then laneRecords g else 0

instance (g : GpuKnobs ρ) (groups : List (ρ × List ρ)) : Decidable (WellFormed g groups) :=
  inferInstanceAs (Decidable (∀ x ∈ groups, _))

/-- The memory instructions of the groups with their lane records. -/
def memory (g : GpuKnobs ρ) (groups : List (ρ × List ρ)) : List (ρ × List ρ) :=
  groups.filter fun x => g.isMem x.1

/-- The decoder has interpreted the instructions of the file and the lane records of each memory
instruction, and nothing else. -/
structure Aligned (g : GpuKnobs ρ) (groups : List (ρ × List ρ)) (s : GpuThread ρ) : Prop where
  ended : s.fetchEnded = true
  insts : s.converted.map (·.1) = groups.map (·.1)
  lanes : s.memUops.map (fun u => (u.inst, u.lanes)) = memory g groups

/-- The decoder gets to the end of the fetch and is aligned there. -/
def Finishes (g : GpuKnobs ρ) (groups : List (ρ × List ρ)) (s : GpuThread ρ) : Prop :=
  ∃ m s', g.getUops m s = some s' ∧ Aligned g groups s'

/-! ## Runs of the decoder -/

/-- Getting uops twice gets as many as both together. -/
theorem getUops_add (g : GpuKnobs ρ) (m n : ℕ) (s : GpuThread ρ) :
    g.getUops (m + n) s = (g.getUops m s).bind (g.getUops n) := by
  induction m generalizing s with
  | zero => rw [Nat.zero_add]; rfl
  | succ m ih =>
      rw [Nat.succ_add]
      change (g.getUop s).bind (g.getUops (m + n)) = ((g.getUop s).bind (g.getUops m)).bind _
      cases g.getUop s with
      | none => rfl
      | some t => exact ih t

/-- Getting one uop is getting uops once. -/
theorem getUops_one {g : GpuKnobs ρ} {s s' : GpuThread ρ} (h : g.getUop s = some s') :
    g.getUops 1 s = some s' := by
  change (g.getUop s).bind _ = _
  rw [h]
  rfl

/-- A thread that has ended stays as it is. -/
theorem getUops_of_ended {g : GpuKnobs ρ} {s : GpuThread ρ} (h : s.fetchEnded = true) (m : ℕ) :
    g.getUops m s = some s := by
  induction m with
  | zero => rfl
  | succ m ih =>
      have hstep : g.getUop s = some s := if_pos h
      change (g.getUop s).bind _ = _
      rw [hstep]
      exact ih

/-- A state that the run has got to finishes as its start does. -/
theorem finishes_iff_of_getUops {g : GpuKnobs ρ} {groups : List (ρ × List ρ)} {m : ℕ}
    {s t : GpuThread ρ} (h : g.getUops m s = some t) :
    Finishes g groups s ↔ Finishes g groups t := by
  constructor
  · rintro ⟨n, s', hn, haligned⟩
    rcases Nat.le_total m n with hle | hle
    · obtain ⟨d, rfl⟩ := Nat.exists_eq_add_of_le hle
      rw [getUops_add, h] at hn
      exact ⟨d, s', hn, haligned⟩
    · obtain ⟨d, rfl⟩ := Nat.exists_eq_add_of_le hle
      rw [getUops_add, hn] at h
      have hsame : some s' = some t := (getUops_of_ended haligned.ended d).symm.trans h
      cases hsame
      exact ⟨0, _, rfl, haligned⟩
  · rintro ⟨n, s', hn, haligned⟩
    refine ⟨m + n, s', ?_, haligned⟩
    rw [getUops_add, h]
    exact hn

/-- A run that fails does not finish. -/
theorem not_finishes_of_getUop {g : GpuKnobs ρ} {groups : List (ρ × List ρ)} {s : GpuThread ρ}
    (h : g.getUop s = none) : ¬ Finishes g groups s := by
  rintro ⟨n, s', hn, haligned⟩
  have hended : g.getUops (n + 1) s = some s' := by
    rw [getUops_add, hn]
    exact getUops_of_ended haligned.ended 1
  have hnone : g.getUops (n + 1) s = none := by
    change (g.getUop s).bind _ = none
    rw [h]
    rfl
  rw [hnone] at hended
  cases hended

/-- Once the fetch has ended nothing changes. -/
theorem finishes_iff_of_ended {g : GpuKnobs ρ} {groups : List (ρ × List ρ)} {s : GpuThread ρ}
    (h : s.fetchEnded = true) : Finishes g groups s ↔ Aligned g groups s := by
  constructor
  · rintro ⟨n, s', hn, haligned⟩
    have hsame : some s = some s' := (getUops_of_ended h n).symm.trans hn
    cases hsame
    exact haligned
  · exact fun haligned => ⟨0, s, rfl, haligned⟩

/-! ## One instruction -/

/-- The uops of another instruction are sent one after the other. -/
theorem getUops_rest (g : GpuKnobs ρ) (m : ℕ) {s : TraceThread ρ} {r : ρ} {a : Addr}
    (hlast : s.converted.getLast? = some (r, a)) (hmem : g.isMem r = false)
    (hnum : s.numUop = s.numSendingUop + m + 1) (c : ℕ) (mems : List (CoalescedUop ρ)) :
    ∃ count sent,
      g.getUops m { s.sendUop with tempUopCount := c, memUops := mems } = some
        { s with
          numSendingUop := s.numUop
          bom := true
          fetchEnded := s.traceEnded
          sent := sent
          tempUopCount := count
          memUops := mems } := by
  induction m generalizing s c with
  | zero =>
      refine ⟨c, s.sent ++ [⟨s.converted.length, s.bom, true, s.traceEnded⟩], ?_⟩
      simp [GpuKnobs.getUops, TraceThread.sendUop, hnum]
  | succ m ih =>
      have heom : ¬ s.numSendingUop + 1 = s.numUop := by omega
      have hsend : s.sendUop = { s with
          numSendingUop := s.numSendingUop + 1
          bom := false
          fetchEnded := false
          sent := s.sent ++ [⟨s.converted.length, s.bom, false, false⟩] } := by
        simp [TraceThread.sendUop, heom]
      have hnum' : s.sendUop.numUop = s.sendUop.numSendingUop + m + 1 := by
        rw [hsend]
        change s.numUop = s.numSendingUop + 1 + m + 1
        omega
      have hlast' : s.sendUop.converted.getLast? = some (r, a) := by
        rw [hsend]
        exact hlast
      have hstep : g.getUop { s.sendUop with tempUopCount := c, memUops := mems } =
          some { s.sendUop.sendUop with tempUopCount := c + 1, memUops := mems } := by
        have hbom : s.sendUop.bom = false := by rw [hsend]
        have hfetch : s.sendUop.fetchEnded = false := by rw [hsend]
        unfold GpuKnobs.getUop
        dsimp only
        rw [if_neg (by rw [hfetch]; exact Bool.false_ne_true),
          if_neg (by rw [hbom]; exact Bool.false_ne_true), hlast']
        dsimp only
        rw [hmem, Bool.and_false, if_neg Bool.false_ne_true]
      obtain ⟨count, sent, hrest⟩ := ih hlast' hnum' (c + 1)
      refine ⟨count, sent, ?_⟩
      change (g.getUop _).bind (g.getUops m) = _
      rw [hstep, Option.bind_some, hrest, hsend]

/-- An instruction that is no memory instruction. -/
theorem getUops_other {g : GpuKnobs ρ} {s : GpuThread ρ} (hbom : s.bom = true)
    (hfetch : s.fetchEnded = false) (hmem : g.isMem s.prev = false) : ∃ m count sent,
    g.getUops m s = some
      { s.toTraceThread.nextInst g.toTraceKnobs with
        numSendingUop := (s.toTraceThread.nextInst g.toTraceKnobs).numUop
        bom := true
        fetchEnded := (s.toTraceThread.nextInst g.toTraceKnobs).traceEnded
        sent := sent
        tempUopCount := count
        memUops := s.memUops } := by
  obtain ⟨-, -, hconv, hnum, hzero, -, -⟩ :=
    TraceThread.nextInst_fields g.toTraceKnobs s.toTraceThread
  generalize hnext : s.toTraceThread.nextInst g.toTraceKnobs = t at *
  have hlast : t.converted.getLast? = some (s.prev,
      g.instAddr (s.toTraceThread.readAhead g.toTraceKnobs).2.next) := by
    rw [hconv]
    exact List.getLast?_concat
  obtain ⟨count, sent, hrest⟩ := getUops_rest g (g.extraUops t.converted) hlast hmem (by omega)
    (s.tempUopCount + 1) s.memUops
  refine ⟨g.extraUops t.converted + 1, count, sent, ?_⟩
  have hstep : g.getUop s =
      some { t.sendUop with tempUopCount := s.tempUopCount + 1, memUops := s.memUops } := by
    unfold GpuKnobs.getUop
    rw [if_neg (by rw [hfetch]; exact Bool.false_ne_true), if_pos hbom, hnext]
    dsimp only
    rw [hlast]
    dsimp only
    rw [hmem, Bool.and_false, if_neg Bool.false_ne_true]
  change (g.getUop s).bind (g.getUops (g.extraUops t.converted)) = _
  rw [hstep, Option.bind_some]
  exact hrest

/-- A memory instruction is one uop, and is coalesced at once. -/
theorem getUop_mem {g : GpuKnobs ρ} {s : GpuThread ρ} (hbom : s.bom = true)
    (hfetch : s.fetchEnded = false) (hmem : g.isMem s.prev = true) : ∃ sent,
    g.getUop s = g.coalesce
      { s.toTraceThread.nextInst g.toTraceKnobs with
        numSendingUop := 1
        bom := true
        fetchEnded := (s.toTraceThread.nextInst g.toTraceKnobs).traceEnded
        sent := sent
        tempUopCount := s.tempUopCount + 1
        memUops := s.memUops } s.prev := by
  obtain ⟨-, -, hconv, hnum, hzero, -, -⟩ :=
    TraceThread.nextInst_fields g.toTraceKnobs s.toTraceThread
  generalize hnext : s.toTraceThread.nextInst g.toTraceKnobs = t at *
  have halone : t.numUop = 1 := by
    rw [hnum, hconv, g.memAlone _ _ _ (by simpa [GpuKnobs.isMem] using hmem)]
  have hlast : t.converted.getLast? = some (s.prev,
      g.instAddr (s.toTraceThread.readAhead g.toTraceKnobs).2.next) := by
    rw [hconv]
    exact List.getLast?_concat
  have hsend : t.sendUop = { t with
      numSendingUop := 1
      bom := true
      fetchEnded := t.traceEnded
      sent := t.sent ++ [⟨t.converted.length, t.bom, true, t.traceEnded⟩] } := by
    simp [TraceThread.sendUop, hzero, halone]
  refine ⟨t.sent ++ [⟨t.converted.length, t.bom, true, t.traceEnded⟩], ?_⟩
  unfold GpuKnobs.getUop
  rw [if_neg (by rw [hfetch]; exact Bool.false_ne_true), if_pos hbom, hnext]
  dsimp only
  rw [hlast]
  dsimp only
  rw [hmem, hsend]
  rfl

/-! ## Coalescing -/

/-- The loop over the lanes does not touch the progress of the instruction. -/
theorem laneLoop_fields {g : GpuKnobs ρ} {r : ρ} (fuel : ℕ) {readAddr : ℕ} {lastInst : Bool}
    {l l' : GpuKnobs.LaneState ρ} (h : g.laneLoop r fuel readAddr lastInst l = some l') :
    ∃ pos index exhausted prev ended, l'.thread =
      { l.thread with
        pos := pos, bufferIndex := index, bufferExhausted := exhausted, prev := prev
        traceEnded := ended } := by
  induction fuel generalizing readAddr lastInst l with
  | zero => cases h
  | succ fuel ih =>
      cases lastInst with
      | true =>
          have h : some (g.peekNext { l with seen := GpuKnobs.collect l.seen l.lines }) =
            some l' := h
          cases h
          unfold GpuKnobs.peekNext
          split
          · exact ⟨_, _, _, _, _, rfl⟩
          · obtain ⟨_, _, _, heq⟩ := SameLog.peekTrace g.toTraceKnobs l.thread l.thread.prev
            dsimp only
            rw [heq]
            exact ⟨_, _, _, _, _, rfl⟩
      | false =>
          rw [laneLoop_lane] at h
          obtain ⟨l₁, hpeek, hrest⟩ := Option.bind_eq_some_iff.mp h
          obtain ⟨pos, index, exhausted, prev, ended, heq⟩ := ih hrest
          refine ⟨pos, index, exhausted, prev, ended, ?_⟩
          rw [heq]
          have hthread : SameLog l.thread l₁.thread := by
            unfold GpuKnobs.peekLane at hpeek
            split at hpeek
            · dsimp only at hpeek
              split at hpeek
              · cases hpeek
                exact SameLog.peekTrace _ _ _
              · cases hpeek
            · cases hpeek
              exact SameLog.refl _
          obtain ⟨_, _, _, hsame⟩ := hthread
          change { l₁.thread with
            pos := pos, bufferIndex := index, bufferExhausted := exhausted, prev := prev
            traceEnded := ended } = _
          rw [hsame]

/-- Coalescing leaves the converted groups and the two marks alone. -/
theorem coalesce_fields {g : GpuKnobs ρ} {s s' : GpuThread ρ} {r : ρ}
    (h : g.coalesce s r = some s') :
    s'.converted = s.converted ∧ s'.fetchEnded = s.fetchEnded ∧ s'.bom = s.bom := by
  unfold GpuKnobs.coalesce at h
  obtain ⟨t, ht, h⟩ := Option.bind_eq_some_iff.mp h
  have hback : ∃ pos index, t =
      { s.toTraceThread with pos := pos, bufferIndex := index } := by
    unfold TraceThread.ungetchTrace at ht
    split at ht
    · cases ht
      exact ⟨_, _, rfl⟩
    · split at ht
      · cases ht
        exact ⟨_, _, rfl⟩
      · cases ht
  split at h
  · cases h
  · obtain ⟨l, hl, h⟩ := Option.bind_eq_some_iff.mp h
    obtain ⟨_, _, _, _, _, hl⟩ := laneLoop_fields _ hl
    obtain ⟨_, _, hback⟩ := hback
    split at h
    · cases h
    · cases h
      dsimp only at hl ⊢
      rw [hl, hback]
      exact ⟨rfl, rfl, rfl⟩

/-- The assertions of the coalescing: on the access size, and that there are lanes to read. -/
theorem coalesce_none {g : GpuKnobs ρ} {s : GpuThread ρ} {r : ρ}
    (h : g.accessSize r = 0 ∨ g.warpSize < 2) : g.coalesce s r = none := by
  unfold GpuKnobs.coalesce
  refine Option.bind_eq_none_iff.mpr fun t _ => ?_
  split
  · rfl
  · next hsize =>
    have hwarp := h.resolve_left hsize
    have hloop : ∀ l, g.laneLoop r g.warpSize 1 false l = none := by
      intro l
      rcases Nat.lt_or_ge g.warpSize 1 with hzero | hone
      · rw [Nat.lt_one_iff.mp hzero]
        rfl
      · have hone : g.warpSize = 1 := by omega
        rw [hone, laneLoop_lane]
        exact Option.bind_eq_none_iff.mpr fun _ _ => rfl
    rw [hloop]
    rfl

/-! ## Group after group -/

/-- The files that are read as they were written, from a place before the second record on. -/
def Good (g : GpuKnobs ρ) : Option ℕ → List (ρ × List ρ) → Prop
  | _, [] => False
  | _, [x] => g.isMem x.1 = false
  | place, x :: y :: rest =>
      (g.isMem x.1 = true → 2 ≤ g.warpSize ∧ g.accessSize x.1 ≠ 0 ∧
        collectedLines g x.1 x.2 (g.warpSize - 1) ≠ []) ∧
      (g.isMem x.1 = false → g.isMem y.1 = false → rest = [] →
        TraceThread.nextPlace g.bufferSize (TraceThread.loadPlace place) = none) ∧
      Good g ((TraceThread.nextPlace g.bufferSize)^[x.2.length + 1] (TraceThread.loadPlace place))
        (y :: rest)

/-- The records of two lists of groups are those of the first and those of the second. -/
theorem flat_append (xs ys : List (ρ × List ρ)) : flat (xs ++ ys) = flat xs ++ flat ys :=
  List.flatMap_append

/-- The records of a group come before those of the groups after it. -/
theorem flat_cons (x : ρ × List ρ) (xs : List (ρ × List ρ)) :
    flat (x :: xs) = x.1 :: (x.2 ++ flat xs) := rfl

/-- The groups `done` have been read, the next one is the first of `gs`. -/
structure Before (g : GpuKnobs ρ) (groups : List (ρ × List ρ)) (s : GpuThread ρ)
    (done gs : List (ρ × List ρ)) (place : Option ℕ) : Prop where
  file : s.file = flat groups
  split : groups = done ++ gs
  stream : TraceThread.Stream g.toTraceKnobs s.toTraceThread ((flat done).length + 1) place
  atInst : TraceThread.AtInstPlace place
  prev : s.prev = (gs.map (·.1)).headD s.prev
  running : s.traceEnded = false
  fetching : s.fetchEnded = false
  bom : s.bom = true
  fetched : s.instFetched ≤ done.length
  insts : s.converted.map (·.1) = done.map (·.1)
  lanes : s.memUops.map (fun u => (u.inst, u.lanes)) = memory g done

/-- What `nextInst` has done when it has read record `p`. -/
structure ReadOn (g : GpuKnobs ρ) (groups : List (ρ × List ρ)) (t : TraceThread ρ) (p : ℕ)
    (place : Option ℕ) : Prop where
  record : (flat groups)[p]? = some t.prev
  ended : t.traceEnded = true ↔
    p + 1 = (flat groups).length ∧
      (TraceThread.nextPlace g.bufferSize (TraceThread.loadPlace place)).isSome = true
  stream : t.traceEnded = false → TraceThread.Stream g.toTraceKnobs t (p + 1)
    (TraceThread.nextPlace g.bufferSize (TraceThread.loadPlace place))
  back : t.traceEnded = true →
    TraceThread.Back g.toTraceKnobs t p (TraceThread.loadPlace place)

/-- Before a group, reading ahead is reading the next record. -/
theorem Before.readAhead {g : GpuKnobs ρ} {groups done gs : List (ρ × List ρ)} {s : GpuThread ρ}
    {place : Option ℕ} {x : ρ × List ρ} (hmax : groups.length ≤ g.maxInsts)
    (h : Before g groups s done (x :: gs) place) :
    s.toTraceThread.readAhead g.toTraceKnobs = s.toTraceThread.readTrace g.toTraceKnobs := by
  refine if_pos ?_
  have hfetched := h.fetched
  have hlen := congrArg List.length h.split
  rw [List.length_append, List.length_cons] at hlen
  omega

/-- The next instruction is converted; the rest of the reader is where it was. -/
theorem Before.converted {g : GpuKnobs ρ} {groups done gs : List (ρ × List ρ)} {s : GpuThread ρ}
    {place : Option ℕ} {x : ρ × List ρ} (h : Before g groups s done (x :: gs) place) :
    (s.toTraceThread.nextInst g.toTraceKnobs).file = flat groups ∧
      (s.toTraceThread.nextInst g.toTraceKnobs).converted.map (·.1) =
        (done ++ [x]).map (·.1) ∧
      (s.toTraceThread.nextInst g.toTraceKnobs).instFetched ≤ (done ++ [x]).length := by
  obtain ⟨hfile, -, hconv, -, -, -, -⟩ :=
    TraceThread.nextInst_fields g.toTraceKnobs s.toTraceThread
  have hprev : s.prev = x.1 := h.prev
  refine ⟨hfile.trans h.file, ?_, ?_⟩
  · rw [hconv, List.map_append, h.insts, hprev, List.map_append]
    rfl
  · obtain ⟨_, _, _, _, _, _, _, heq⟩ :=
      TraceThread.readAhead_fields g.toTraceKnobs s.toTraceThread
    have hfetched := h.fetched
    rw [List.length_append, List.length_singleton]
    unfold TraceThread.nextInst TraceThread.convertPrev
    rw [heq]
    dsimp only
    split
    · omega
    · omega

/-- Reading ahead within the file. -/
theorem Before.readOn {g : GpuKnobs ρ} {groups done gs : List (ρ × List ρ)} {s : GpuThread ρ}
    {place : Option ℕ} {x : ρ × List ρ} (hB : 0 < g.bufferSize)
    (hmax : groups.length ≤ g.maxInsts) (h : Before g groups s done (x :: gs) place)
    (hp : (flat done).length + 1 < (flat groups).length) :
    ReadOn g groups (s.toTraceThread.nextInst g.toTraceKnobs) ((flat done).length + 1) place := by
  have hread := h.readAhead hmax
  obtain ⟨-, -, -, -, -, hended, hprev⟩ :=
    TraceThread.nextInst_fields g.toTraceKnobs s.toTraceThread
  obtain ⟨hrec, htrace, hiff, hgo, hback⟩ :=
    h.stream.readTrace hB h.atInst h.running (by rw [h.file]; exact hp)
  rw [hread] at hended hprev
  rw [h.file] at hrec
  unfold TraceThread.CutShort at hiff
  rw [h.file] at hiff
  refine ⟨by rw [hprev]; exact hrec, ?_, fun hrun => ?_, fun hstop => ?_⟩
  · rw [hended, htrace, Bool.not_eq_true', ← Bool.not_eq_true, hiff, not_not]
  · rw [hended, htrace] at hrun
    have hstream := hgo (by simpa using hrun)
    unfold TraceThread.nextInst
    rw [hread]
    exact hstream.congr rfl rfl rfl rfl rfl rfl
  · rw [hended, htrace] at hstop
    have hback := hback (by simpa using hstop)
    unfold TraceThread.nextInst
    rw [hread]
    exact hback.congr rfl rfl rfl rfl rfl rfl

/-- Reading ahead behind the last record. -/
theorem Before.endOfFile {g : GpuKnobs ρ} {groups done gs : List (ρ × List ρ)} {s : GpuThread ρ}
    {place : Option ℕ} {x : ρ × List ρ} (hmax : groups.length ≤ g.maxInsts)
    (h : Before g groups s done (x :: gs) place)
    (hp : (flat done).length + 1 = (flat groups).length) :
    (s.toTraceThread.nextInst g.toTraceKnobs).traceEnded = true := by
  obtain ⟨-, -, -, -, -, hended, -⟩ :=
    TraceThread.nextInst_fields g.toTraceKnobs s.toTraceThread
  have hstream := h.stream
  rw [hp, ← h.file] at hstream
  rw [hended, h.readAhead hmax]
  exact hstream.readTrace_end h.running

/-- Fewer instructions than the file has are no alignment. -/
theorem not_aligned_of_length {g : GpuKnobs ρ} {groups xs : List (ρ × List ρ)} {s : GpuThread ρ}
    (hconv : s.converted.map (·.1) = xs.map (·.1)) (hlen : xs.length ≠ groups.length) :
    ¬ Aligned g groups s := by
  intro haligned
  have hinsts := haligned.insts
  rw [hconv] at hinsts
  have := congrArg List.length hinsts
  rw [List.length_map, List.length_map] at this
  exact hlen this

/-- The last instruction, if it is no memory instruction. -/
theorem Before.lastOther {g : GpuKnobs ρ} {groups done : List (ρ × List ρ)} {s : GpuThread ρ}
    {place : Option ℕ} {x : ρ × List ρ} (hmax : groups.length ≤ g.maxInsts)
    (hwf : WellFormed g groups) (h : Before g groups s done [x] place)
    (hmem : g.isMem x.1 = false) : Finishes g groups s := by
  have hprev : s.prev = x.1 := h.prev
  obtain ⟨-, hconv, -⟩ := h.converted
  obtain ⟨m, count, sent, hrun⟩ := getUops_other h.bom h.fetching (by rw [hprev]; exact hmem)
  have hlanes : x.2 = [] := by
    have hlen := hwf x (by rw [h.split]; simp)
    rw [hmem] at hlen
    exact List.length_eq_zero_iff.mp hlen
  have hend := h.endOfFile hmax (by
    rw [h.split, flat_append, List.length_append, flat_cons, hlanes]
    rfl)
  have hsplit := h.split
  rw [finishes_iff_of_getUops hrun, finishes_iff_of_ended hend]
  refine ⟨hend, ?_, ?_⟩
  · rw [hsplit]
    exact hconv
  · dsimp only
    rw [h.lanes, hsplit]
    simp [memory, hmem]

/-- An instruction that is no memory instruction, with another one behind it. -/
theorem Before.other {g : GpuKnobs ρ} {groups done rest : List (ρ × List ρ)} {s : GpuThread ρ}
    {place : Option ℕ} {x y : ρ × List ρ} (hB : 0 < g.bufferSize)
    (hmax : groups.length ≤ g.maxInsts) (hwf : WellFormed g groups)
    (h : Before g groups s done (x :: y :: rest) place) (hmem : g.isMem x.1 = false) :
    (rest = [] ∧ y.2 = [] ∧
        (TraceThread.nextPlace g.bufferSize (TraceThread.loadPlace place)).isSome = true ∧
        ∃ m s', g.getUops m s = some s' ∧ s'.fetchEnded = true ∧
          s'.converted.map (·.1) = (done ++ [x]).map (·.1)) ∨
      (¬ (rest = [] ∧ y.2 = [] ∧
        (TraceThread.nextPlace g.bufferSize (TraceThread.loadPlace place)).isSome = true) ∧
      ∃ m s', g.getUops m s = some s' ∧ Before g groups s' (done ++ [x]) (y :: rest)
        ((TraceThread.nextPlace g.bufferSize)^[x.2.length + 1]
          (TraceThread.loadPlace place))) := by
  have hprev : s.prev = x.1 := h.prev
  obtain ⟨hfile, hconv, hfetched⟩ := h.converted
  obtain ⟨m, count, sent, hrun⟩ := getUops_other h.bom h.fetching (by rw [hprev]; exact hmem)
  have hlanes : x.2 = [] := by
    have hlen := hwf x (by rw [h.split]; simp)
    rw [hmem] at hlen
    exact List.length_eq_zero_iff.mp hlen
  have hflat : flat groups = flat done ++ x.1 :: y.1 :: (y.2 ++ flat rest) := by
    rw [h.split, flat_append, flat_cons, flat_cons, hlanes]
    rfl
  have hlen : (flat groups).length =
      (flat done).length + 2 + y.2.length + (flat rest).length := by
    rw [hflat]
    simp only [List.length_append, List.length_cons]
    omega
  have hread := h.readOn hB hmax (by omega)
  have hcut : (flat done).length + 1 + 1 = (flat groups).length ↔ rest = [] ∧ y.2 = [] := by
    rw [hlen]
    constructor
    · intro heq
      have hrest : (flat rest).length = 0 := by omega
      refine ⟨?_, List.length_eq_zero_iff.mp (by omega)⟩
      cases rest with
      | nil => rfl
      | cons z zs =>
          rw [flat_cons, List.length_cons] at hrest
          omega
    · rintro ⟨rfl, hy⟩
      rw [hy]
      rfl
  have hended := hread.ended
  rw [hcut, and_assoc] at hended
  by_cases hstop : (s.toTraceThread.nextInst g.toTraceKnobs).traceEnded = true
  · obtain ⟨hrest, hy, hplace⟩ := hended.mp hstop
    exact Or.inl ⟨hrest, hy, hplace, m, _, hrun, hstop, hconv⟩
  · refine Or.inr ⟨fun hall => hstop (hended.mpr hall), m, _, hrun, ?_⟩
    rw [Bool.not_eq_true] at hstop
    have hstream := hread.stream hstop
    have hrecord := hread.record
    rw [hflat, List.getElem?_append_right (by omega), Nat.add_sub_cancel_left] at hrecord
    rw [hlanes]
    exact
      { file := hfile
        split := by rw [h.split]; simp
        stream := by
          rw [flat_append, List.length_append, flat_cons, hlanes]
          exact hstream.congr rfl rfl rfl rfl rfl rfl
        atInst := by
          change TraceThread.AtInstPlace
            (TraceThread.nextPlace g.bufferSize (TraceThread.loadPlace place))
          exact TraceThread.nextPlace_ne_zero _ _
        prev := (Option.some.inj hrecord).symm
        running := hstop
        fetching := hstop
        bom := rfl
        fetched := hfetched
        insts := hconv
        lanes := by
          dsimp only
          rw [h.lanes]
          simp [memory, hmem] }

/-! ## Too many instructions -/

/-- A call at the beginning of an instruction converts one record, another call none. -/
theorem getUop_count {g : GpuKnobs ρ} {s s' : GpuThread ρ} (hfetch : s.fetchEnded = false)
    (h : g.getUop s = some s') :
    s'.converted.length = s.converted.length + if s.bom then 1 else 0 := by
  have hnext : (if s.bom then s.toTraceThread.nextInst g.toTraceKnobs
      else s.toTraceThread).converted.length =
        s.converted.length + if s.bom then 1 else 0 := by
    split
    · obtain ⟨-, -, hconv, -⟩ := TraceThread.nextInst_fields g.toTraceKnobs s.toTraceThread
      rw [hconv, List.length_append]
      rfl
    · rfl
  rw [← hnext]
  unfold GpuKnobs.getUop at h
  rw [if_neg (by rw [hfetch]; exact Bool.false_ne_true)] at h
  dsimp only at h
  generalize (if s.bom = true then s.toTraceThread.nextInst g.toTraceKnobs
    else s.toTraceThread) = t at h ⊢
  split at h
  · split at h
    · rw [(coalesce_fields h).1]
      rfl
    · cases h
      rfl
  · cases h
    rfl

/-- Getting uops takes no converted group away. -/
theorem getUops_count {g : GpuKnobs ρ} (m : ℕ) {s s' : GpuThread ρ}
    (h : g.getUops m s = some s') : s.converted.length ≤ s'.converted.length := by
  induction m generalizing s with
  | zero =>
      cases h
      exact le_rfl
  | succ m ih =>
      obtain ⟨t, ht, hrest⟩ := Option.bind_eq_some_iff.mp h
      have hle := ih hrest
      cases hfetch : s.fetchEnded with
      | true =>
          have hsame : g.getUop s = some s := if_pos hfetch
          rw [hsame] at ht
          cases ht
          exact hle
      | false =>
          have := getUop_count hfetch ht
          omega

/-- When all instructions have been converted and the fetch goes on, one more is converted. -/
theorem not_finishes_of_more {g : GpuKnobs ρ} {groups : List (ρ × List ρ)} {s : GpuThread ρ}
    (hconv : s.converted.map (·.1) = groups.map (·.1)) (hfetch : s.fetchEnded = false)
    (hbom : s.bom = true) : ¬ Finishes g groups s := by
  rintro ⟨m, s', hm, haligned⟩
  have hlen := congrArg List.length hconv
  have hlen' := congrArg List.length haligned.insts
  simp only [List.length_map] at hlen hlen'
  cases m with
  | zero =>
      cases hm
      have hended := haligned.ended
      rw [hfetch] at hended
      cases hended
  | succ m =>
      obtain ⟨t, ht, hrest⟩ := Option.bind_eq_some_iff.mp hm
      have hone := getUop_count hfetch ht
      have hle := getUops_count m hrest
      rw [if_pos hbom] at hone
      omega

/-- A group has lane records. -/
theorem laneRecords_pos {g : GpuKnobs ρ} (hA : 0 < g.addrPerTraceInst) (hW : 2 ≤ g.warpSize) :
    0 < laneRecords g := by
  unfold laneRecords recordsOf
  exact Nat.div_pos (by omega) hA

/-- The assertion on the lane record that counts as missing. -/
theorem coalesce_missing {g : GpuKnobs ρ} {s : GpuThread ρ} {r : ρ} {p : ℕ} {place : Option ℕ}
    (hW : 2 ≤ g.warpSize)
    (hback : TraceThread.Back g.toTraceKnobs s.toTraceThread p place)
    (hcut : p + 1 = s.file.length)
    (hplace : (TraceThread.nextPlace g.bufferSize place).isSome = true) :
    g.coalesce s r = none := by
  obtain ⟨t, pos, index, hback, hstream, heq⟩ := hback
  have hfile : t.file = s.file := by rw [heq]
  obtain ⟨-, hiff, -⟩ := hstream.peekTrace r (by rw [hfile]; omega)
  have hmissing : ¬ (t.peekTrace g.toTraceKnobs r).1 = true := by
    rw [hiff, not_not]
    exact ⟨by rw [hfile]; exact hcut, hplace⟩
  unfold GpuKnobs.coalesce
  rw [hback, Option.bind_some]
  split
  · rfl
  · obtain ⟨fuel, hfuel⟩ := Nat.exists_eq_succ_of_ne_zero
      (Nat.ne_of_gt (Nat.lt_of_lt_of_le Nat.zero_lt_two hW))
    rw [hfuel, laneLoop_lane]
    unfold GpuKnobs.peekLane
    rw [if_pos (Nat.zero_mod _)]
    dsimp only
    rw [if_neg hmissing]
    rfl

/-- A memory instruction at the end of the file: its last lane record counts as missing, or the
decoder goes on to a record that is no instruction. -/
theorem Before.lastMem {g : GpuKnobs ρ} {groups done : List (ρ × List ρ)} {s : GpuThread ρ}
    {place : Option ℕ} {x : ρ × List ρ} (hB : 0 < g.bufferSize) (hA : 0 < g.addrPerTraceInst)
    (hmax : groups.length ≤ g.maxInsts) (hwf : WellFormed g groups)
    (h : Before g groups s done [x] place) (hmem : g.isMem x.1 = true) :
    ¬ Finishes g groups s := by
  have hprev : s.prev = x.1 := h.prev
  obtain ⟨-, hconv, -⟩ := h.converted
  obtain ⟨sent, hrun⟩ := getUop_mem h.bom h.fetching (by rw [hprev]; exact hmem)
  rw [hprev] at hrun
  by_cases hassert : g.accessSize x.1 = 0 ∨ g.warpSize < 2
  · rw [coalesce_none hassert] at hrun
    exact not_finishes_of_getUop hrun
  push Not at hassert
  have hpos := laneRecords_pos hA hassert.2
  have hlanes : x.2.length = laneRecords g := by
    rw [hwf x (by rw [h.split]; simp), hmem]
    rfl
  have hlen : (flat groups).length = (flat done).length + 1 + x.2.length := by
    rw [h.split, flat_append, flat_cons]
    simp only [List.length_append, List.length_cons]
    change _ + (_ + 0 + 1) = _
    omega
  have hread := h.readOn hB hmax (by omega)
  cases hstop : (s.toTraceThread.nextInst g.toTraceKnobs).traceEnded with
  | true =>
      obtain ⟨hcut, hplace⟩ := hread.ended.mp hstop
      have hnone : g.getUop s = none := by
        rw [hrun]
        refine coalesce_missing hassert.2
          ((hread.back hstop).congr rfl rfl rfl rfl rfl rfl) ?_ hplace
        rw [hcut]
        exact congrArg List.length h.converted.1.symm
      exact not_finishes_of_getUop hnone
  | false =>
      rcases hcoalesce : g.getUop s with - | s'
      · exact not_finishes_of_getUop hcoalesce
      · have hone := getUops_one hcoalesce
        rw [hrun] at hcoalesce
        obtain ⟨hconv', hfetch, hbom⟩ := coalesce_fields hcoalesce
        rw [finishes_iff_of_getUops hone]
        refine not_finishes_of_more ?_ (hfetch.trans hstop) hbom
        rw [hconv', h.split]
        exact hconv

/-! ## Lane records -/

/-- The coalescing reads the lane records and peeks at the next instruction. -/
theorem coalesce_reads {g : GpuKnobs ρ} {s : GpuThread ρ} {r : ρ} {lanes : List ρ} {p : ℕ}
    {place : Option ℕ} (hA : 0 < g.addrPerTraceInst) (hW : 2 ≤ g.warpSize)
    (hsize : g.accessSize r ≠ 0) (hback : TraceThread.Back g.toTraceKnobs s.toTraceThread p place)
    (hfile : ∀ i < lanes.length, s.file[p + i]? = lanes[i]?)
    (hlen : lanes.length = laneRecords g) (hmore : p + lanes.length < s.file.length)
    (hended : s.traceEnded = false) :
    ∃ t : TraceThread ρ, SameLog s.toTraceThread t ∧
      TraceThread.Stream g.toTraceKnobs t (p + lanes.length)
        ((TraceThread.nextPlace g.bufferSize)^[lanes.length] place) ∧
      g.coalesce s r =
        if collectedLines g r lanes (g.warpSize - 1) = [] then none
        else some
          { (t.peekTrace g.toTraceKnobs t.prev).2.2 with
            prev := (t.peekTrace g.toTraceKnobs t.prev).2.1
            traceEnded := !(t.peekTrace g.toTraceKnobs t.prev).1
            tempUopCount :=
              s.tempUopCount + (collectedLines g r lanes (g.warpSize - 1)).length
            memUops := s.memUops ++ [⟨r, lanes,
              GpuKnobs.children s.tempUopCount (collectedLines g r lanes (g.warpSize - 1)),
              GpuKnobs.pendingMask (collectedLines g r lanes (g.warpSize - 1)).length⟩] } := by
  obtain ⟨t, pos, index, hback, hstream, heq⟩ := hback
  have hlog : SameLog s.toTraceThread t := ⟨pos, index, s.bufferExhausted, by rw [heq]⟩
  have htfile : t.file = s.file := by rw [heq]
  have hzero := recordsOf_zero g hA
  have hstart : AfterLanes g r t lanes p place 0 ⟨t, r, g.uopLines r, [], []⟩ :=
    { stream := by
        rw [hzero]
        exact hstream
      log := SameLog.refl t
      info := fun h => absurd (Nat.zero_mod _) h
      read := by
        rw [hzero]
        rfl
      seen := rfl }
  obtain ⟨m, hm⟩ := Nat.exists_eq_add_of_le' hW
  obtain ⟨l, hloop, hseen, hlanes, hlog', hstream'⟩ := laneLoop_reads hA
    (fun i hi => by rw [htfile]; exact hfile i hi) hlen (by rw [htfile]; exact hmore) (m + 1) 0
    (by omega) hstart
  have hended' : l.thread.traceEnded = false := by
    obtain ⟨_, _, _, hl⟩ := hlog.trans hlog'
    rw [hl]
    exact hended
  refine ⟨l.thread, hlog.trans hlog', hstream', ?_⟩
  have hstep : g.laneLoop r g.warpSize 1 false ⟨t, r, g.uopLines r, [], []⟩ =
      some (g.peekNext l) := by
    rw [hm]
    exact hloop
  have hnext : g.peekNext l =
      { l with thread :=
          { (l.thread.peekTrace g.toTraceKnobs l.thread.prev).2.2 with
            prev := (l.thread.peekTrace g.toTraceKnobs l.thread.prev).2.1
            traceEnded := !(l.thread.peekTrace g.toTraceKnobs l.thread.prev).1 } } :=
    if_neg (by rw [hended']; exact Bool.false_ne_true)
  unfold GpuKnobs.coalesce
  rw [hback, Option.bind_some, if_neg hsize, hstep, Option.bind_some, hnext]
  dsimp only
  rw [hseen, hlanes]

/-- The last record, which is no memory instruction, was flagged as missing when it was peeked
at. -/
structure Flagged (g : GpuKnobs ρ) (groups : List (ρ × List ρ)) (s : GpuThread ρ)
    (done : List (ρ × List ρ)) (y : ρ) : Prop where
  split : groups = done ++ [(y, [])]
  prev : s.prev = y
  other : g.isMem y = false
  ended : s.traceEnded = true
  fetching : s.fetchEnded = false
  bom : s.bom = true
  insts : s.converted.map (·.1) = done.map (·.1)
  lanes : s.memUops.map (fun u => (u.inst, u.lanes)) = memory g done

/-- It is delivered all the same. -/
theorem Flagged.finishes {g : GpuKnobs ρ} {groups done : List (ρ × List ρ)} {s : GpuThread ρ}
    {y : ρ} (h : Flagged g groups s done y) : Finishes g groups s := by
  obtain ⟨m, count, sent, hrun⟩ := getUops_other h.bom h.fetching (by rw [h.prev]; exact h.other)
  obtain ⟨-, -, hconv, -, -, htrace, -⟩ :=
    TraceThread.nextInst_fields g.toTraceKnobs s.toTraceThread
  have hstop : (s.toTraceThread.nextInst g.toTraceKnobs).traceEnded = true := by
    rw [htrace]
    unfold TraceThread.readAhead
    split
    · unfold TraceThread.readTrace
      rw [if_pos h.ended]
      exact h.ended
    · rfl
  rw [finishes_iff_of_getUops hrun, finishes_iff_of_ended hstop]
  refine ⟨hstop, ?_, ?_⟩
  · dsimp only
    rw [hconv, List.map_append, h.insts, h.split, List.map_append, h.prev]
    rfl
  · dsimp only
    rw [h.lanes, h.split]
    simp [memory, h.other]

/-- The file before, at and behind a memory instruction. -/
theorem Before.flat_mem {g : GpuKnobs ρ} {groups done rest : List (ρ × List ρ)} {s : GpuThread ρ}
    {place : Option ℕ} {x y : ρ × List ρ} (h : Before g groups s done (x :: y :: rest) place) :
    flat groups = flat done ++ x.1 :: (x.2 ++ y.1 :: (y.2 ++ flat rest)) ∧
      (flat groups).length =
        (flat done).length + 2 + x.2.length + y.2.length + (flat rest).length := by
  have hflat : flat groups = flat done ++ x.1 :: (x.2 ++ y.1 :: (y.2 ++ flat rest)) := by
    rw [h.split, flat_append, flat_cons, flat_cons]
  refine ⟨hflat, ?_⟩
  rw [hflat]
  simp only [List.length_append, List.length_cons]
  omega

/-- A memory instruction with another instruction behind it is coalesced from its lane records. -/
theorem Before.coalesces {g : GpuKnobs ρ} {groups done rest : List (ρ × List ρ)} {s : GpuThread ρ}
    {place : Option ℕ} {x y : ρ × List ρ} (hB : 0 < g.bufferSize) (hA : 0 < g.addrPerTraceInst)
    (hmax : groups.length ≤ g.maxInsts) (hwf : WellFormed g groups)
    (h : Before g groups s done (x :: y :: rest) place) (hmem : g.isMem x.1 = true)
    (hW : 2 ≤ g.warpSize) (hsize : g.accessSize x.1 ≠ 0) :
    (s.toTraceThread.nextInst g.toTraceKnobs).traceEnded = false ∧
      ∃ (sent : List SentUop) (u : TraceThread ρ) (place' : Option ℕ),
        SameLog { s.toTraceThread.nextInst g.toTraceKnobs with
          numSendingUop := 1
          bom := true
          fetchEnded := (s.toTraceThread.nextInst g.toTraceKnobs).traceEnded
          sent := sent } u ∧
        TraceThread.Stream g.toTraceKnobs u ((flat done).length + 1 + x.2.length) place' ∧
        (TraceThread.nextPlace g.bufferSize)^[x.2.length + 1] (TraceThread.loadPlace place) =
          TraceThread.nextPlace g.bufferSize place' ∧
        g.getUop s =
          if collectedLines g x.1 x.2 (g.warpSize - 1) = [] then none
          else some
            { (u.peekTrace g.toTraceKnobs u.prev).2.2 with
              prev := (u.peekTrace g.toTraceKnobs u.prev).2.1
              traceEnded := !(u.peekTrace g.toTraceKnobs u.prev).1
              tempUopCount :=
                s.tempUopCount + 1 + (collectedLines g x.1 x.2 (g.warpSize - 1)).length
              memUops := s.memUops ++ [⟨x.1, x.2,
                GpuKnobs.children (s.tempUopCount + 1)
                  (collectedLines g x.1 x.2 (g.warpSize - 1)),
                GpuKnobs.pendingMask (collectedLines g x.1 x.2 (g.warpSize - 1)).length⟩] } := by
  have hprev : s.prev = x.1 := h.prev
  obtain ⟨hfile, -, -⟩ := h.converted
  obtain ⟨sent, hrun⟩ := getUop_mem h.bom h.fetching (by rw [hprev]; exact hmem)
  rw [hprev] at hrun
  have hlanes : x.2.length = laneRecords g := by
    rw [hwf x (by rw [h.split]; simp), hmem]
    rfl
  have hpos := laneRecords_pos hA hW
  obtain ⟨hflat, hlen⟩ := h.flat_mem
  have hread := h.readOn hB hmax (by omega)
  generalize hnext : s.toTraceThread.nextInst g.toTraceKnobs = t at *
  have hgo : t.traceEnded = false := by
    rw [← Bool.not_eq_true, hread.ended]
    omega
  have hstart : place.getD 0 ≤ (flat done).length + 1 := by
    have hstream := h.stream
    cases place with
    | none => exact Nat.zero_le _
    | some i =>
        have hstream : TraceThread.Buffered g.toTraceKnobs s.toTraceThread _ i := hstream
        exact hstream.start
  obtain ⟨place', hback, hplace⟩ := (hread.stream hgo).ungetchTrace hstart
  have hrecords : ∀ i < x.2.length, t.file[(flat done).length + 1 + i]? = x.2[i]? := by
    intro i hi
    rw [hfile, hflat, List.getElem?_append_right (by omega),
      show (flat done).length + 1 + i - (flat done).length = i + 1 by omega,
      List.getElem?_cons_succ, List.getElem?_append_left hi]
  obtain ⟨u, hlog, hstream, hcoalesce⟩ := coalesce_reads (s :=
      { t with
        numSendingUop := 1, bom := true, fetchEnded := t.traceEnded, sent := sent
        tempUopCount := s.tempUopCount + 1, memUops := s.memUops })
    hA hW hsize (hback.congr rfl rfl rfl rfl rfl rfl) hrecords hlanes
    (by
      change _ < t.file.length
      rw [hfile]
      omega) hgo
  refine ⟨hgo, sent, u, _, hlog, hstream, ?_, hrun.trans hcoalesce⟩
  rw [Function.iterate_succ_apply, ← Function.iterate_succ_apply' (TraceThread.nextPlace _),
    Function.iterate_succ_apply]
  exact congrArg _ hplace.symm

/-- A memory instruction with another instruction behind it. -/
theorem Before.mem {g : GpuKnobs ρ} {groups done rest : List (ρ × List ρ)} {s : GpuThread ρ}
    {place : Option ℕ} {x y : ρ × List ρ} (hB : 0 < g.bufferSize) (hA : 0 < g.addrPerTraceInst)
    (hmax : groups.length ≤ g.maxInsts) (hwf : WellFormed g groups)
    (h : Before g groups s done (x :: y :: rest) place) (hmem : g.isMem x.1 = true)
    (hW : 2 ≤ g.warpSize) (hsize : g.accessSize x.1 ≠ 0) :
    (collectedLines g x.1 x.2 (g.warpSize - 1) = [] ∧ g.getUop s = none) ∨
      (collectedLines g x.1 x.2 (g.warpSize - 1) ≠ [] ∧
        ∃ s', g.getUop s = some s' ∧
          ((rest = [] ∧ Flagged g groups s' (done ++ [x]) y.1) ∨
            Before g groups s' (done ++ [x]) (y :: rest)
              ((TraceThread.nextPlace g.bufferSize)^[x.2.length + 1]
                (TraceThread.loadPlace place)))) := by
  obtain ⟨hfile, hconv, hfetched⟩ := h.converted
  have hpos := laneRecords_pos hA hW
  obtain ⟨hflat, hlen⟩ := h.flat_mem
  obtain ⟨hgo, sent, u, place', hlog, hstream, hiter, hrun⟩ :=
    h.coalesces hB hA hmax hwf hmem hW hsize
  generalize hnext : s.toTraceThread.nextInst g.toTraceKnobs = t at *
  have hnextInst : t.file[(flat done).length + 1 + x.2.length]? = some y.1 := by
    rw [hfile, hflat, List.getElem?_append_right (by omega),
      show (flat done).length + 1 + x.2.length - (flat done).length = x.2.length + 1 by omega,
      List.getElem?_cons_succ, List.getElem?_append_right le_rfl, Nat.sub_self]
    rfl
  have hmemory : memory g (done ++ [x]) = memory g done ++ [x] := by
    simp [memory, hmem]
  by_cases hcollected : collectedLines g x.1 x.2 (g.warpSize - 1) = []
  · rw [if_pos hcollected] at hrun
    exact Or.inl ⟨hcollected, hrun⟩
  rw [if_neg hcollected] at hrun
  refine Or.inr ⟨hcollected, _, hrun, ?_⟩
  obtain ⟨_, _, _, hu⟩ := hlog
  have hufile : u.file = t.file := by rw [hu]
  obtain ⟨hrec, hiff, hpeekgo⟩ := hstream.peekTrace u.prev (by
    rw [hufile, hfile]
    omega)
  rw [hufile, hnextInst] at hrec
  have hy := Option.some.inj hrec
  obtain ⟨_, _, _, hv⟩ := SameLog.peekTrace g.toTraceKnobs u u.prev
  have hmems : (s.memUops ++ [(⟨x.1, x.2, GpuKnobs.children (s.tempUopCount + 1)
      (collectedLines g x.1 x.2 (g.warpSize - 1)), GpuKnobs.pendingMask
        (collectedLines g x.1 x.2 (g.warpSize - 1)).length⟩ : CoalescedUop ρ)]).map
      (fun m => (m.inst, m.lanes)) = memory g (done ++ [x]) := by
    rw [List.map_append, h.lanes, hmemory]
    rfl
  by_cases hpeek : (u.peekTrace g.toTraceKnobs u.prev).1 = true
  · exact Or.inr
      { file := by
          dsimp only
          rw [hv]
          exact hufile.trans hfile
        split := by rw [h.split]; simp
        stream := by
          have hpos : (flat (done ++ [x])).length + 1 =
              (flat done).length + 1 + x.2.length + 1 := by
            rw [flat_append, flat_cons]
            simp only [List.length_append, List.length_cons]
            change _ + (_ + 0 + 1) + 1 = _
            omega
          rw [hiter, hpos]
          refine (hpeekgo hpeek).congr rfl rfl rfl rfl rfl rfl
        atInst := by
          rw [hiter]
          exact TraceThread.nextPlace_ne_zero _ _
        prev := hy.symm
        running := by
          dsimp only
          rw [hpeek]
          rfl
        fetching := by
          dsimp only
          rw [hv, hu]
          exact hgo
        bom := by
          dsimp only
          rw [hv, hu]
        fetched := by
          dsimp only
          rw [hv, hu]
          exact hfetched
        insts := by
          dsimp only
          rw [hv, hu]
          exact hconv
        lanes := hmems }
  · have hcut := not_not.mp (mt hiff.mpr hpeek)
    have hend := hcut.1
    rw [hufile, hfile, hlen] at hend
    have hrest : rest = [] := by
      cases rest with
      | nil => rfl
      | cons z zs =>
          rw [flat_cons, List.length_cons] at hend
          omega
    have hylanes : y.2.length = if g.isMem y.1 then laneRecords g else 0 :=
      hwf y (by rw [h.split]; simp)
    have hother : g.isMem y.1 = false := by
      by_contra hymem
      rw [Bool.not_eq_false] at hymem
      rw [hymem, if_pos rfl] at hylanes
      omega
    have hnone : y.2 = [] := by
      rw [hother] at hylanes
      exact List.length_eq_zero_iff.mp hylanes
    exact Or.inl ⟨hrest,
      { split := by
          rw [h.split, hrest, ← hnone]
          simp
        prev := hy.symm
        other := hother
        ended := by
          dsimp only
          rw [Bool.not_eq_true] at hpeek
          rw [hpeek]
          rfl
        fetching := by
          dsimp only
          rw [hv, hu]
          exact hgo
        bom := by
          dsimp only
          rw [hv, hu]
        insts := by
          dsimp only
          rw [hv, hu]
          exact hconv
        lanes := hmems }⟩

/-! ## The whole file -/

/-- From a group on, the file is read as it was written exactly if the rest of it is good. -/
theorem Before.finishes_iff {g : GpuKnobs ρ} {groups gs : List (ρ × List ρ)} (hB : 0 < g.bufferSize)
    (hA : 0 < g.addrPerTraceInst) (hmax : groups.length ≤ g.maxInsts)
    (hwf : WellFormed g groups) (hne : gs ≠ []) {done : List (ρ × List ρ)} {s : GpuThread ρ}
    {place : Option ℕ} (h : Before g groups s done gs place) :
    Finishes g groups s ↔ Good g place gs := by
  induction gs generalizing done s place with
  | nil => exact absurd rfl hne
  | cons x gs ih =>
      cases gs with
      | nil =>
          change _ ↔ g.isMem x.1 = false
          cases hmem : g.isMem x.1 with
          | false => exact iff_of_true (h.lastOther hmax hwf hmem) rfl
          | true => exact iff_of_false (h.lastMem hB hA hmax hwf hmem) (by simp)
      | cons y rest =>
          have hy : y.2.length = if g.isMem y.1 then laneRecords g else 0 :=
            hwf y (by rw [h.split]; simp)
          cases hmem : g.isMem x.1 with
          | false =>
              rcases h.other hB hmax hwf hmem with
                ⟨hrest, -, hplace, m, s', hrun, hstop, hconv⟩ | ⟨hnot, m, s', hrun, hs'⟩
              · have hlost : ¬ Finishes g groups s := by
                  rw [finishes_iff_of_getUops hrun, finishes_iff_of_ended hstop]
                  refine not_aligned_of_length hconv ?_
                  rw [h.split]
                  simp
                refine iff_of_false hlost ?_
                rintro ⟨-, hcond, htail⟩
                subst hrest
                have hother : g.isMem y.1 = false := htail
                rw [hcond hmem hother rfl] at hplace
                cases hplace
              · rw [finishes_iff_of_getUops hrun, ih (List.cons_ne_nil _ _) hs']
                refine ⟨fun htail => ⟨fun hx => ?_, fun _ hother hrest => ?_, htail⟩,
                  fun hgood => hgood.2.2⟩
                · rw [hmem] at hx
                  cases hx
                · rw [hother] at hy
                  by_contra hplace
                  exact hnot ⟨hrest, List.length_eq_zero_iff.mp hy, Option.isSome_iff_ne_none.mpr hplace⟩
          | true =>
              by_cases hassert : g.accessSize x.1 = 0 ∨ g.warpSize < 2
              · have hprev : s.prev = x.1 := h.prev
                obtain ⟨sent, hrun⟩ := getUop_mem h.bom h.fetching (by rw [hprev]; exact hmem)
                rw [hprev, coalesce_none hassert] at hrun
                refine iff_of_false (not_finishes_of_getUop hrun) fun hgood => ?_
                obtain ⟨hW, hsize, -⟩ := hgood.1 hmem
                rcases hassert with hzero | hone
                · exact hsize hzero
                · omega
              push Not at hassert
              obtain ⟨hsize, hW⟩ := hassert
              rcases h.mem hB hA hmax hwf hmem hW hsize with
                ⟨hempty, hnone⟩ | ⟨hlines, s', hrun, hgo⟩
              · exact iff_of_false (not_finishes_of_getUop hnone)
                  fun hgood => (hgood.1 hmem).2.2 hempty
              · have hfirst : Good g place (x :: y :: rest) ↔
                    Good g ((TraceThread.nextPlace g.bufferSize)^[x.2.length + 1]
                      (TraceThread.loadPlace place)) (y :: rest) := by
                  refine ⟨fun hgood => hgood.2.2, fun htail =>
                    ⟨fun _ => ⟨hW, hsize, hlines⟩, fun hx => ?_, htail⟩⟩
                  rw [hmem] at hx
                  cases hx
                rw [hfirst, finishes_iff_of_getUops (getUops_one hrun)]
                rcases hgo with ⟨hrest, hflagged⟩ | hs'
                · subst hrest
                  exact iff_of_true hflagged.finishes hflagged.other
                · exact ih (List.cons_ne_nil _ _) hs'

/-- The reader of a new warp is before the second record. -/
theorem Before.setup {g : GpuKnobs ρ} {x : ρ × List ρ} {gs : List (ρ × List ρ)} (junk : ρ) :
    Before g (x :: gs) (GpuKnobs.setup (flat (x :: gs)) junk) [] (x :: gs) none where
  file := rfl
  split := rfl
  stream := ⟨rfl, rfl, by
    change min 1 _ = 1
    rw [flat_cons, List.length_cons]
    omega, by
    change 0 + 1 ≤ (flat (x :: gs)).length
    rw [flat_cons, List.length_cons]
    omega⟩
  atInst := by simp [TraceThread.AtInstPlace]
  prev := rfl
  running := rfl
  fetching := rfl
  bom := rfl
  fetched := Nat.zero_le _
  insts := rfl
  lanes := rfl

/-- The decoder interprets the instructions of a file as such, and each memory instruction with
its lane records, exactly if the file is good: the memory instructions have lanes, the last
instruction is none of them, and it is not lost to the buffer. -/
theorem gpu_stream_aligned_iff (g : GpuKnobs ρ) (hB : 0 < g.bufferSize)
    (hA : 0 < g.addrPerTraceInst) (groups : List (ρ × List ρ)) (hwf : WellFormed g groups)
    (hmax : groups.length ≤ g.maxInsts) (junk : ρ) :
    Finishes g groups (GpuKnobs.setup (flat groups) junk) ↔ Good g none groups := by
  cases groups with
  | nil =>
      refine iff_of_false ?_ not_false
      rintro ⟨m, s', hm, haligned⟩
      have hnone := congrArg List.length haligned.insts
      rw [List.length_map] at hnone
      cases m with
      | zero =>
          cases hm
          exact Bool.false_ne_true haligned.ended
      | succ m =>
          obtain ⟨t, ht, hrest⟩ := Option.bind_eq_some_iff.mp hm
          have hone : t.converted.length = 0 + 1 := getUop_count rfl ht
          have hle := getUops_count m hrest
          simp only [List.map_nil, List.length_nil] at hnone
          omega
  | cons x gs =>
      exact (Before.setup junk).finishes_iff hB hA hmax hwf (List.cons_ne_nil _ _)

/-- Warps of two lanes with one lane address a record; the numbers below 10 are loads of four
bytes and addresses. -/
def plainGpuKnobs (bufferSize : ℕ) : GpuKnobs ℕ where
  bufferSize := bufferSize
  maxInsts := 1000000
  instAddr := fun r => BitVec.ofNat 64 r
  extraUops := fun _ => 0
  warpSize := 2
  addrPerTraceInst := 1
  processId := 0
  lineSize := fun _ => ⟨6, by decide⟩
  memType := fun r => if r < 10 then .ld else .notMem
  memAddr := fun r => BitVec.ofNat 64 (64 * r)
  accessSize := fun _ => 4
  laneAddr := fun r _ => BitVec.ofNat 64 (64 * r)
  memAlone := fun _ _ _ _ => rfl

/-- A load and an instruction behind it. -/
theorem gpu_stream_aligned_iff_load :
    Finishes (plainGpuKnobs 1000) [(1, [2]), (20, [])]
        (GpuKnobs.setup (flat [(1, [2]), (20, [])]) 0) ↔
      Good (plainGpuKnobs 1000) none [(1, [2]), (20, [])] :=
  gpu_stream_aligned_iff (plainGpuKnobs 1000) (by decide) (by decide) [(1, [2]), (20, [])]
    (by decide) (by decide) 0

/-- With the buffer of the source the second of two instructions is never interpreted. -/
theorem gpu_stream_drops_last_record :
    WellFormed (plainGpuKnobs 1000) [(10, []), (20, [])] ∧
      ¬ Finishes (plainGpuKnobs 1000) [(10, []), (20, [])]
        (GpuKnobs.setup (flat [(10, []), (20, [])]) 0) := by
  have hwf : WellFormed (plainGpuKnobs 1000) [(10, []), (20, [])] := by decide
  refine ⟨hwf, ?_⟩
  rw [(Before.setup 0).finishes_iff (by decide) (by decide) (by decide) hwf
    (List.cons_ne_nil _ _)]
  rintro ⟨-, hcond, -⟩
  have hplace := hcond rfl rfl rfl
  revert hplace
  decide

end GpuKnobs

end MacSim.Analysis
