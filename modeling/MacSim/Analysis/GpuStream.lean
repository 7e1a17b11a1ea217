import MacSim.Analysis.TraceDelivery
import MacSim.Model.GpuDecoder

/-!
# The stream of records under the GPU decoder

The decoder reads the same stream through `read_trace`, `peek_trace` and `ungetch_trace`.
`Stream` is where it stands: before record `p`, and either inside the buffer (`some i`, `i` the
buffer index) or on the file itself (`none`).  Each of the three functions moves it by one
record.  Only the last record of the file can be taken for its end, when it is not the last one
of a full buffer.
-/

set_option autoImplicit false

namespace MacSim.Analysis

open MacSim.Model

namespace TraceThread

variable {ρ : Type}

/-- The next record is `buffer i`, the buffer starts at record `p - i`. -/
structure Buffered (k : TraceKnobs ρ) (s : TraceThread ρ) (p i : ℕ) : Prop where
  exhausted : s.bufferExhausted = false
  index : s.bufferIndex = i
  inside : i < s.bufferIndexMax
  start : i ≤ p
  indexMax : s.bufferIndexMax = min k.bufferSize (s.file.length - (p - i))
  pos : s.pos = p - i + s.bufferIndexMax
  buffer : ∀ j < s.bufferIndexMax, s.file[p - i + j]? = some (s.buffer j)

/-- The next record is the one at the position of the file. -/
structure Direct (s : TraceThread ρ) (p : ℕ) : Prop where
  exhausted : s.bufferExhausted = true
  index : s.bufferIndex = 0
  pos : s.pos = p
  bound : p ≤ s.file.length

/-- Where the reader stands. -/
def Stream (k : TraceKnobs ρ) (s : TraceThread ρ) (p : ℕ) : Option ℕ → Prop
  | some i => Buffered k s p i
  | none => Direct s p

/-- The place behind one more record. -/
def nextPlace (bufferSize : ℕ) : Option ℕ → Option ℕ
  | some i => if i + 1 < bufferSize then some (i + 1) else none
  | none => none

/-- The record before `p` is the last one of the file and the buffer is not full. -/
def CutShort (k : TraceKnobs ρ) (s : TraceThread ρ) (p : ℕ) (place : Option ℕ) : Prop :=
  p + 1 = s.file.length ∧ (nextPlace k.bufferSize place).isSome = true

/-- The place in the stream is read from the file and from the buffer. -/
theorem Stream.congr {k : TraceKnobs ρ} {s s' : TraceThread ρ} {p : ℕ} {place : Option ℕ}
    (h : Stream k s p place) (hfile : s'.file = s.file) (hpos : s'.pos = s.pos)
    (hbuf : s'.buffer = s.buffer) (hi : s'.bufferIndex = s.bufferIndex)
    (hm : s'.bufferIndexMax = s.bufferIndexMax) (he : s'.bufferExhausted = s.bufferExhausted) :
    Stream k s' p place := by
  cases place with
  | some i =>
      have h : Buffered k s p i := h
      exact
        { exhausted := he.trans h.exhausted
          index := hi.trans h.index
          inside := by rw [hm]; exact h.inside
          start := h.start
          indexMax := by rw [hm, hfile]; exact h.indexMax
          pos := by rw [hpos, hm]; exact h.pos
          buffer := by rw [hm, hfile, hbuf]; exact h.buffer }
  | none =>
      have h : Direct s p := h
      exact
        { exhausted := he.trans h.exhausted
          index := hi.trans h.index
          pos := hpos.trans h.pos
          bound := by rw [hfile]; exact h.bound }

/-- `ungetch_trace` goes back to record `p`. -/
def Back (k : TraceKnobs ρ) (s : TraceThread ρ) (p : ℕ) (place : Option ℕ) : Prop :=
  ∃ t pos index, s.ungetchTrace = some t ∧ Stream k t p place ∧
    t = { s with pos := pos, bufferIndex := index }

/-- The place one step back is read from the file and from the buffer. -/
theorem Back.congr {k : TraceKnobs ρ} {s s' : TraceThread ρ} {p : ℕ} {place : Option ℕ}
    (h : Back k s p place) (hfile : s'.file = s.file) (hpos : s'.pos = s.pos)
    (hbuf : s'.buffer = s.buffer) (hi : s'.bufferIndex = s.bufferIndex)
    (hm : s'.bufferIndexMax = s.bufferIndexMax) (he : s'.bufferExhausted = s.bufferExhausted) :
    Back k s' p place := by
  obtain ⟨t, pos, index, ht, hstream, heq⟩ := h
  unfold TraceThread.ungetchTrace at ht
  unfold Back TraceThread.ungetchTrace
  rw [hi, hpos]
  split at ht
  · next hindex =>
    cases ht
    refine ⟨_, _, _, if_pos hindex, hstream.congr hfile rfl hbuf rfl hm he, rfl⟩
  · next hindex =>
    split at ht
    · next hp =>
      cases ht
      refine ⟨_, _, _, (if_neg hindex).trans (if_pos hp),
        hstream.congr hfile rfl hbuf rfl hm he, rfl⟩
    · cases ht

/-- Moving on in the buffer. -/
theorem Buffered.advance {k : TraceKnobs ρ} {s : TraceThread ρ} {p i : ℕ} (h : Buffered k s p i) :
    s.file[p]? = some (s.buffer s.bufferIndex) ∧
      ((s.advanceBuffer k).1 = true ↔ ¬ CutShort k s p (some i)) ∧
      ((s.advanceBuffer k).1 = true →
        Stream k (s.advanceBuffer k).2 (p + 1) (nextPlace k.bufferSize (some i))) ∧
      ((s.advanceBuffer k).1 = false → (s.advanceBuffer k).2.bufferIndex = i + 1 ∧
        Buffered k { (s.advanceBuffer k).2 with bufferIndex := i } p i) := by
  have hstart := h.start
  have hinside := h.inside
  have hmax := h.indexMax
  have hrecord := h.buffer i hinside
  rw [h.index]
  refine ⟨by rw [← hrecord]; congr 1; omega, ?_, ?_, ?_⟩
  · unfold TraceThread.advanceBuffer CutShort nextPlace
    rw [h.index, decide_eq_true_iff]
    dsimp only
    by_cases hi : i + 1 < k.bufferSize
    · rw [Nat.mod_eq_of_lt hi, if_pos hi]
      simp only [Option.isSome_some, and_true]
      omega
    · have hib : i + 1 = k.bufferSize := by omega
      rw [hib, Nat.mod_self, if_neg (Nat.lt_irrefl _)]
      simp only [Option.isSome_none, Bool.false_eq_true, and_false, not_false_iff, iff_true]
      omega
  · intro hread
    unfold TraceThread.advanceBuffer at hread
    rw [h.index, decide_eq_true_iff] at hread
    by_cases hi : i + 1 < k.bufferSize
    · rw [Nat.mod_eq_of_lt hi] at hread
      have hnext : nextPlace k.bufferSize (some i) = some (i + 1) := if_pos hi
      rw [hnext]
      have hsub : p + 1 - (i + 1) = p - i := by omega
      exact
        { exhausted := by
            simp [TraceThread.advanceBuffer, h.exhausted, h.index, Nat.mod_eq_of_lt hi]
          index := by simp [TraceThread.advanceBuffer, h.index, Nat.mod_eq_of_lt hi]
          inside := hread
          start := by omega
          indexMax := by rw [hsub]; exact hmax
          pos := by rw [hsub]; exact h.pos
          buffer := by rw [hsub]; exact h.buffer }
    · have hib : i + 1 = k.bufferSize := by omega
      have hnext : nextPlace k.bufferSize (some i) = none := if_neg hi
      rw [hnext]
      exact
        { exhausted := by simp [TraceThread.advanceBuffer, h.index, hib]
          index := by simp [TraceThread.advanceBuffer, h.index, hib]
          pos := by
            change s.pos = _
            rw [h.pos]
            omega
          bound := by
            change p + 1 ≤ s.file.length
            omega }
  · intro hread
    unfold TraceThread.advanceBuffer at hread ⊢
    rw [h.index, decide_eq_false_iff_not] at hread
    dsimp only
    rw [h.index]
    by_cases hi : i + 1 < k.bufferSize
    · refine ⟨Nat.mod_eq_of_lt hi, ?_, rfl, hinside, hstart, hmax, h.pos, h.buffer⟩
      rw [Nat.mod_eq_of_lt hi, h.exhausted]
      rfl
    · have hib : i + 1 = k.bufferSize := by omega
      rw [hib, Nat.mod_self] at hread
      omega

/-- `read_trace` loads the buffer when it stands on the file. -/
theorem Direct.load {k : TraceKnobs ρ} {s : TraceThread ρ} {p : ℕ} (hB : 0 < k.bufferSize)
    (h : Direct s p) (hp : p < s.file.length) : Buffered k (s.readChunk k) p 0 := by
  have hlen : (s.gzread k.bufferSize).length = min k.bufferSize (s.file.length - p) := by
    rw [TraceThread.gzread, List.length_take, List.length_drop, h.pos]
  refine ⟨rfl, h.index, ?_, Nat.zero_le _, hlen, ?_, fun j hj => ?_⟩
  · change 0 < (s.gzread k.bufferSize).length
    omega
  · change s.pos + _ = p - 0 + _
    rw [h.pos]
    rfl
  · have hj : j < (s.gzread k.bufferSize).length := hj
    have hget : (s.gzread k.bufferSize)[j]? = s.file[p + j]? := by
      rw [TraceThread.gzread, List.getElem?_take_of_lt (by rw [hlen] at hj; omega),
        List.getElem?_drop, h.pos]
    change s.file[p + j]? = some ((s.gzread k.bufferSize).getD j (s.buffer j))
    rw [← hget, List.getElem?_eq_getElem hj, List.getD_eq_getElem _ _ hj]

/-- The place of the reader after `read_trace` has loaded the buffer if need be. -/
def loadPlace (place : Option ℕ) : Option ℕ := some (place.getD 0)

/-- The reader stands where `read_trace` may be called: not at the start of a buffer that is
loaded already. -/
def AtInstPlace (place : Option ℕ) : Prop := place ≠ some 0

/-- The place after any other is not the start. -/
theorem nextPlace_ne_zero (bufferSize : ℕ) (place : Option ℕ) :
    AtInstPlace (nextPlace bufferSize place) := by
  unfold AtInstPlace
  cases place with
  | none => simp [nextPlace]
  | some i =>
      unfold nextPlace
      dsimp only
      split
      · simp
      · simp

/-- `read_trace` reads record `p`. -/
theorem Stream.readTrace {k : TraceKnobs ρ} {s : TraceThread ρ} {p : ℕ} {place : Option ℕ}
    (hB : 0 < k.bufferSize) (h : Stream k s p place) (hplace : AtInstPlace place)
    (hended : s.traceEnded = false) (hp : p < s.file.length) :
    s.file[p]? = some (s.readTrace k).2.next ∧
      (s.readTrace k).2.traceEnded = !(s.readTrace k).1 ∧
      ((s.readTrace k).1 = true ↔ ¬ CutShort k s p (loadPlace place)) ∧
      ((s.readTrace k).1 = true →
        Stream k (s.readTrace k).2 (p + 1) (nextPlace k.bufferSize (loadPlace place))) ∧
      ((s.readTrace k).1 = false → Back k (s.readTrace k).2 p (loadPlace place)) := by
  have hload : Buffered k (if s.bufferIndex = 0 then s.readChunk k else s) p (place.getD 0) := by
    cases place with
    | none =>
        have h : Direct s p := h
        rw [if_pos h.index]
        exact h.load hB hp
    | some i =>
        have h : Buffered k s p i := h
        have hi : s.bufferIndex ≠ 0 := by
          rw [h.index]
          intro hz
          exact hplace (by rw [hz])
        rw [if_neg hi]
        exact h
  have hfile : (if s.bufferIndex = 0 then s.readChunk k else s).file = s.file := by
    split <;> rfl
  have hread : s.readTrace k = (fun m : TraceThread ρ =>
      ((m.advanceBuffer k).1, { (m.advanceBuffer k).2 with
        next := m.buffer m.bufferIndex
        traceEnded := !(m.advanceBuffer k).1 }))
      (if s.bufferIndex = 0 then s.readChunk k else s) := by
    unfold TraceThread.readTrace
    rw [if_neg (by simp [hended])]
    rfl
  generalize (if s.bufferIndex = 0 then s.readChunk k else s) = m at *
  obtain ⟨hrec, hiff, hgo, hstay⟩ := hload.advance
  rw [hread]
  dsimp only
  refine ⟨by rw [← hfile, hrec], rfl, ?_, fun hr => ?_, fun hr => ?_⟩
  · rw [hiff]
    unfold CutShort loadPlace
    rw [hfile]
  · exact (hgo hr).congr rfl rfl rfl rfl rfl rfl
  · obtain ⟨hindex, hback⟩ := hstay hr
    have hback : Stream k { (m.advanceBuffer k).2 with bufferIndex := place.getD 0 } p
        (loadPlace place) := hback
    refine ⟨_, _, _, if_pos ?_, ?_, rfl⟩
    · dsimp only
      omega
    · refine hback.congr rfl rfl rfl ?_ rfl rfl
      dsimp only
      omega

/-- At the end of the file the reader stands on the file. -/
theorem Stream.atEnd {k : TraceKnobs ρ} {s : TraceThread ρ} {place : Option ℕ}
    (h : Stream k s s.file.length place) : place = none := by
  cases place with
  | none => rfl
  | some i =>
      have h : Buffered k s s.file.length i := h
      have hmax := h.indexMax
      have hinside := h.inside
      have hstart := h.start
      omega

/-- `read_trace` reads nothing at the end of the file. -/
theorem Stream.readTrace_end {k : TraceKnobs ρ} {s : TraceThread ρ} {place : Option ℕ}
    (h : Stream k s s.file.length place) (hended : s.traceEnded = false) :
    (s.readTrace k).2.traceEnded = true := by
  have hplace := h.atEnd
  subst hplace
  have h : Direct s s.file.length := h
  have hnone : s.gzread k.bufferSize = [] := by
    rw [TraceThread.gzread, h.pos, List.drop_length, List.take_nil]
  unfold TraceThread.readTrace
  rw [if_neg (by simp [hended]), if_pos h.index]
  simp [TraceThread.advanceBuffer, TraceThread.readChunk, hnone]

/-- `peek_trace` reads record `p`. -/
theorem Stream.peekTrace {k : TraceKnobs ρ} {s : TraceThread ρ} {p : ℕ} {place : Option ℕ}
    (h : Stream k s p place) (old : ρ) (hp : p < s.file.length) :
    s.file[p]? = some (s.peekTrace k old).2.1 ∧
      ((s.peekTrace k old).1 = true ↔ ¬ CutShort k s p place) ∧
      ((s.peekTrace k old).1 = true →
        Stream k (s.peekTrace k old).2.2 (p + 1) (nextPlace k.bufferSize place)) := by
  cases place with
  | some i =>
      have h : Buffered k s p i := h
      have hpeek : s.peekTrace k old =
          ((s.advanceBuffer k).1, s.buffer s.bufferIndex, (s.advanceBuffer k).2) := by
        unfold TraceThread.peekTrace
        rw [if_neg (by simp [h.exhausted])]
      rw [hpeek]
      obtain ⟨hrec, hiff, hgo, -⟩ := h.advance
      exact ⟨hrec, hiff, hgo⟩
  | none =>
      have h : Direct s p := h
      have hread : s.gzread 1 = [s.file[p]] := by
        rw [TraceThread.gzread, h.pos, List.drop_eq_getElem_cons hp]
        rfl
      have hpeek : s.peekTrace k old = (true, s.file[p], { s with pos := s.pos + 1 }) := by
        unfold TraceThread.peekTrace
        rw [if_pos h.exhausted, hread]
      rw [hpeek]
      refine ⟨List.getElem?_eq_getElem hp, ?_, fun _ => ?_⟩
      · simp [CutShort, nextPlace]
      · exact ⟨h.exhausted, h.index, congrArg (· + 1) h.pos, hp⟩

/-- The last record that was read is pushed back. -/
theorem Stream.ungetchTrace {k : TraceKnobs ρ} {s : TraceThread ρ} {p i : ℕ}
    (h : Stream k s (p + 1) (nextPlace k.bufferSize (some i))) (hi : i ≤ p) :
    ∃ place, Back k s p place ∧
      nextPlace k.bufferSize place = nextPlace k.bufferSize (some i) := by
  by_cases hib : i + 1 < k.bufferSize
  · have hnext : nextPlace k.bufferSize (some i) = some (i + 1) := if_pos hib
    rw [hnext] at h
    have h : Buffered k s (p + 1) (i + 1) := h
    have hindex : 1 ≤ s.bufferIndex := by
      rw [h.index]
      omega
    have hinside := h.inside
    have hsub : p + 1 - (i + 1) = p - i := by omega
    refine ⟨some i, ⟨_, _, _, if_pos hindex, ?_, rfl⟩, rfl⟩
    exact
      { exhausted := h.exhausted
        index := by
          dsimp only
          rw [h.index]
          omega
        inside := by
          dsimp only
          omega
        start := hi
        indexMax := by rw [← hsub]; exact h.indexMax
        pos := by rw [← hsub]; exact h.pos
        buffer := by rw [← hsub]; exact h.buffer }
  · have hnext : nextPlace k.bufferSize (some i) = none := if_neg hib
    rw [hnext] at h ⊢
    have h : Direct s (p + 1) := h
    have hindex : ¬ 1 ≤ s.bufferIndex := by
      rw [h.index]
      omega
    have hpos : 1 ≤ s.pos := by
      rw [h.pos]
      omega
    have hbound := h.bound
    refine ⟨none, ⟨{ s with pos := s.pos - 1 }, _, _, ?_, ?_, rfl⟩, rfl⟩
    · unfold TraceThread.ungetchTrace
      rw [if_neg hindex, if_pos hpos]
    · refine ⟨h.exhausted, h.index, ?_, ?_⟩
      · dsimp only
        rw [h.pos]
        omega
      · dsimp only
        omega

end TraceThread

end MacSim.Analysis
