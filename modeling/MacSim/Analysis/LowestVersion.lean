import MacSim.Model.BackEnd
import MacSim.Computation.RunningMinimum

/-!
# The lowest version in the write buffer

A load is compared with the stores of the lowest version in the write buffer, and with the
least uop number among them.  `get_min_wb` finds the version in one pass, and the number with
it; it does not forget the number when it meets a lower version, so that a store of a higher
version that it met first may leave its number behind.
-/

set_option autoImplicit false

namespace MacSim.Analysis

open MacSim.Model MacSim.Computation

namespace BackEnd

/-- The version of a uop. -/
def versionOf (s : BackEnd) (p : UopPtr) : ℕ := (s.heap p).memVersion

/-- The number of a uop. -/
def numberOf (s : BackEnd) (p : UopPtr) : ℕ := (s.heap p).uopNum

/-- Versions have 16 bits and numbers 64. -/
structure Sized (s : BackEnd) : Prop where
  version : ∀ p ∈ s.writeBuffer, versionOf s p ≤ 0xFFFF
  number : ∀ p ∈ s.writeBuffer, numberOf s p ≤ 2 ^ 64 - 1

/-- The version found is the lowest in the buffer, and the age is the least number among exactly
the stores of that version. -/
structure MinWbExact (s : BackEnd) : Prop where
  version : ∃ p ∈ s.writeBuffer, versionOf s p = s.getMinWb.1
  version_le : ∀ p ∈ s.writeBuffer, s.getMinWb.1 ≤ versionOf s p
  age : ∃ p ∈ s.writeBuffer, versionOf s p = s.getMinWb.1 ∧ numberOf s p = s.getMinWb.2
  age_le : ∀ p ∈ s.writeBuffer, versionOf s p = s.getMinWb.1 → s.getMinWb.2 ≤ numberOf s p

/-- The load `p` is of a higher version than the lowest one of the buffer and no younger than any
store of that version.  The order of the buffer does not matter for it. -/
def PassesLowest (s : BackEnd) (p : UopPtr) : Prop :=
  (∃ q, Lowest (versionOf s) s.writeBuffer q ∧ versionOf s q < versionOf s p) ∧
    ∀ q, Lowest (versionOf s) s.writeBuffer q → numberOf s p ≤ numberOf s q

/-- No store that was of the lowest version up to its place is older than all stores of the
lowest version. -/
def NoStaleAge (s : BackEnd) : Prop :=
  ∀ p, LowestSoFar (versionOf s) s.writeBuffer p →
    ∃ q, Lowest (versionOf s) s.writeBuffer q ∧ numberOf s q ≤ numberOf s p

/-- The search is a fold over the write buffer. -/
theorem getMinWb_eq (s : BackEnd) :
    s.getMinWb = s.writeBuffer.foldl (scanMin (versionOf s) (numberOf s)) (0xFFFF, 2 ^ 64 - 1) :=
  rfl

/-- The stores of the version found are the lowest ones. -/
theorem lowest_iff {s : BackEnd} (hsized : Sized s) {p : UopPtr} :
    Lowest (versionOf s) s.writeBuffer p ↔
      p ∈ s.writeBuffer ∧ versionOf s p = s.getMinWb.1 := by
  obtain ⟨-, hall, hsome⟩ := foldl_scanMin_fst (versionOf s) (numberOf s) s.writeBuffer
    (0xFFFF, 2 ^ 64 - 1)
  rw [← getMinWb_eq] at hall hsome
  refine ⟨fun h => ⟨h.1, ?_⟩, fun ⟨hp, heq⟩ => ⟨hp, fun q hq => heq ▸ hall q hq⟩⟩
  refine le_antisymm ?_ (hall p h.1)
  rcases hsome with hstart | ⟨q, hq, hsame⟩
  · rw [hstart]
    exact hsized.version p h.1
  · rw [hsame]
    exact h.2 q hq

/-- What the scan returns, for a buffer that is not empty. -/
theorem getMinWb_spec {s : BackEnd} (hne : s.writeBuffer ≠ []) (hsized : Sized s) :
    (∃ p, Lowest (versionOf s) s.writeBuffer p) ∧
      (∀ p, LowestSoFar (versionOf s) s.writeBuffer p → s.getMinWb.2 ≤ numberOf s p) ∧
      ∃ p, LowestSoFar (versionOf s) s.writeBuffer p ∧ s.getMinWb.2 = numberOf s p := by
  obtain ⟨-, hall, hsome⟩ := foldl_scanMin_snd (versionOf s) (numberOf s) s.writeBuffer
    (0xFFFF, 2 ^ 64 - 1)
  rw [← getMinWb_eq] at hall hsome
  have hle : ∀ p, LowestSoFar (versionOf s) s.writeBuffer p → s.getMinWb.2 ≤ numberOf s p :=
    fun p hp => hall p hp (hsized.version p hp.mem)
  refine ⟨?_, hle, ?_⟩
  · obtain ⟨p, hp, hmin⟩ := s.writeBuffer.toFinset.exists_min_image (versionOf s)
      (List.toFinset_nonempty_iff _ |>.mpr hne)
    exact ⟨p, List.mem_toFinset.mp hp, fun q hq => hmin q (List.mem_toFinset.mpr hq)⟩
  · rcases hsome with hstart | ⟨p, hp, -, hsame⟩
    · -- the number of the first store is as large as the start value
      obtain ⟨p, rest, hbuffer⟩ := List.exists_cons_of_ne_nil hne
      have hhead : LowestSoFar (versionOf s) s.writeBuffer p := hbuffer ▸ lowestSoFar_head
      refine ⟨p, hhead, le_antisymm (hle p hhead) ?_⟩
      rw [hstart]
      exact hsized.number p hhead.mem
    · exact ⟨p, hp, hsame⟩

/-- The search is exact when no age is stale, and only then. -/
theorem minWbExact_iff {s : BackEnd} (hne : s.writeBuffer ≠ []) (hsized : Sized s) :
    MinWbExact s ↔ NoStaleAge s := by
  obtain ⟨⟨m, hm⟩, hle, p₀, hp₀, hage⟩ := getMinWb_spec hne hsized
  have hlow := fun p => lowest_iff hsized (p := p)
  constructor
  · intro h p hp
    obtain ⟨q, hq, hver, hnum⟩ := h.age
    exact ⟨q, (hlow q).mpr ⟨hq, hver⟩, hnum ▸ hle p hp⟩
  · intro h
    obtain ⟨hmem, hver⟩ := (hlow m).mp hm
    obtain ⟨q, hq, hnum⟩ := h p₀ hp₀
    have hqage : numberOf s q = s.getMinWb.2 :=
      le_antisymm (hage ▸ hnum) (hle q hq.soFar)
    obtain ⟨hqmem, hqver⟩ := (hlow q).mp hq
    exact
      { version := ⟨m, hmem, hver⟩
        version_le := fun p hp => hver ▸ hm.2 p hp
        age := ⟨q, hqmem, hqver, hqage⟩
        age_le := fun p hp hpver => hle p ((hlow p).mpr ⟨hp, hpver⟩).soFar }

/-- The test of a load, once the age is right. -/
theorem MinWbExact.check {s : BackEnd} (h : MinWbExact s) (hne : s.writeBuffer ≠ [])
    (hsized : Sized s) (p : UopPtr) : s.checkLdOrderingWb p = true ↔ PassesLowest s p := by
  have hlow := fun p => lowest_iff hsized (p := p)
  obtain ⟨a, ha, haver, hanum⟩ := h.age
  have hlowest : Lowest (versionOf s) s.writeBuffer a := (hlow a).mpr ⟨ha, haver⟩
  have hempty : s.writeBuffer.isEmpty = false := by simpa using hne
  unfold BackEnd.checkLdOrderingWb
  rw [hempty, Bool.not_false, Bool.true_and, Bool.and_eq_true, decide_eq_true_eq,
    decide_eq_true_eq]
  constructor
  · rintro ⟨hversion, hnumber⟩
    refine ⟨⟨a, hlowest, haver ▸ hversion⟩, fun q hq => ?_⟩
    obtain ⟨hqmem, hqver⟩ := (hlow q).mp hq
    exact hnumber.trans (h.age_le q hqmem hqver)
  · rintro ⟨⟨q, hq, hversion⟩, hnumber⟩
    refine ⟨?_, hanum ▸ hnumber a hlowest⟩
    rw [← ((hlow q).mp hq).2]
    exact hversion

/-- The search is exact, and the test of every load says whether it passes the stores of the
lowest version, exactly if no stale age is kept. -/
theorem min_wb_exact_iff (s : BackEnd) (hne : s.writeBuffer ≠ []) (hsized : Sized s) :
    (MinWbExact s ∧ ∀ p, s.checkLdOrderingWb p = true ↔ PassesLowest s p) ↔ NoStaleAge s := by
  rw [← minWbExact_iff hne hsized]
  exact ⟨fun h => h.1, fun h => ⟨h, h.check hne hsized⟩⟩

/-- A CPU core with a write buffer of eight entries. -/
def writeBufferKnobs : BackKnobs where
  gpu := false
  useWb := true
  wbSize := 8
  wbFifo := false
  acqRel := true
  fenceEnable := true
  width := 4
  robSize := 96
  numThreads := 1
  maxInsts := 1000000
  total := fun _ => 64

/-- Its state with two stores in the write buffer, given by version and number. -/
def twoStores (first second : ℕ × ℕ) : BackEnd :=
  let new := BackEnd.new writeBufferKnobs
  { new with
    heap := fun p =>
      { new.heap p with
        memVersion := if p = 0 then first.1 else second.1
        uopNum := if p = 0 then first.2 else second.2 }
    writeBuffer := [0, 1] }

/-- With stores in order of version the search is exact. -/
theorem min_wb_exact_iff_sorted :
    (MinWbExact (twoStores (1, 5) (2, 7)) ∧
        ∀ p, (twoStores (1, 5) (2, 7)).checkLdOrderingWb p = true ↔
          PassesLowest (twoStores (1, 5) (2, 7)) p) ↔
      NoStaleAge (twoStores (1, 5) (2, 7)) :=
  min_wb_exact_iff (twoStores (1, 5) (2, 7)) (by decide) ⟨by decide, by decide⟩

/-- A store of version 2 and number 1 in front of one of version 1 and number 5: the age of
version 1 is said to be 1. -/
theorem min_wb_keeps_stale_age :
    (twoStores (2, 1) (1, 5)).getMinWb = (1, 1) ∧ ¬ MinWbExact (twoStores (2, 1) (1, 5)) := by
  refine ⟨by decide, fun h => ?_⟩
  obtain ⟨p, hp, hver, hnum⟩ := h.age
  revert p
  decide

end BackEnd

end MacSim.Analysis
