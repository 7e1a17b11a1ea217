import MacSim.Analysis.StrideRegions
import MacSim.Computation.Partial

/-!
# The prefetches of a trained stride

From when a single stride has repeated often enough until an access does not go on with it, the
prefetches of a region are one arithmetic progression.  The stride they follow is the one that has
repeated as long as the automaton is in its first state then: the state is set back before the
stride is copied, so that in the second state the stride of the first one is kept.
-/

set_option autoImplicit false

namespace MacSim.Analysis

open MacSim.Model
open MacSim.Computation

/-- Two ints whose product is an int. -/
theorem signExtend_mul {a b : BitVec 32} (h : (a * b).toInt = a.toInt * b.toInt) :
    (a * b).signExtend 64 = a.signExtend 64 * b.signExtend 64 := by
  have hlow := BitVec.le_two_mul_toInt (x := a * b)
  have hhigh := BitVec.two_mul_toInt_lt (x := a * b)
  refine BitVec.eq_of_toInt_eq ?_
  rw [BitVec.toInt_mul, BitVec.toInt_signExtend_of_le (by omega),
    BitVec.toInt_signExtend_of_le (by omega), BitVec.toInt_signExtend_of_le (by omega), ← h]
  refine (Int.bmod_eq_of_le ?_ ?_).symm <;> omega

namespace StrideIndexEntry

variable {k : StrideKnobs} {accept : ℕ → Bool} {e : StrideIndexEntry} {lineIndex : Addr}

/-! ## Episodes -/

/-- An episode of a single stride: the line where it was trained, the stride and how often it had
been seen, and the prefetches that were sent. -/
structure Episode where
  start : Addr
  stride : BitVec 32
  count : ℤ
  sent : List Addr

/-- The line `n` strides behind the start distance. -/
def Episode.line (k : StrideKnobs) (ep : Episode) (n : ℕ) : Addr :=
  ep.start + ep.stride.signExtend 64 * (k.startdistance.signExtend 64 + BitVec.ofNat 64 n)

/-- The first line of an episode is the start and the start distance. -/
theorem Episode.line_zero (ep : Episode) :
    ep.line k 0 = ep.start + ep.stride.signExtend 64 * k.startdistance.signExtend 64 := by
  unfold Episode.line
  rw [BitVec.add_zero]

/-- Each line of an episode is one stride from the one before. -/
theorem Episode.line_succ (ep : Episode) (n : ℕ) :
    ep.line k (n + 1) = ep.line k n + ep.stride.signExtend 64 := by
  unfold Episode.line
  rw [BitVec.ofNat_add, ← BitVec.add_assoc, BitVec.mul_add, BitVec.mul_one, BitVec.add_assoc]

/-- The stride of an access. -/
def strideOf (e : StrideIndexEntry) (lineIndex : Addr) : BitVec 32 :=
  (lineIndex - e.lastIndex).setWidth 32

/-- The entry before it is looked at whether it is trained now. -/
def learnt (k : StrideKnobs) (e : StrideIndexEntry) (lineIndex : Addr) : StrideIndexEntry :=
  let e' := { e with lastIndex := lineIndex }
  if e.trainCountMode then e'.check (strideOf e lineIndex) lineIndex
  else e'.learn k (strideOf e lineIndex)

/-- The episode after an access: a new one starts with the stride whose count has reached the
threshold. -/
def episodeAfter (k : StrideKnobs) (accept : ℕ → Bool) (e : StrideIndexEntry) (lineIndex : Addr)
    (ep : Option Episode) : Option Episode :=
  let y := e.access k accept lineIndex
  if y.1.trained then
    if e.trained then ep.map fun ep => { ep with sent := ep.sent ++ y.2 }
    else
      some ⟨lineIndex, (learnt k e lineIndex).stride (learnt k e lineIndex).currState,
        (learnt k e lineIndex).sCnt (learnt k e lineIndex).currState, []⟩
  else none

/-- A single stride is followed: the entry has the stride of the episode, which had been seen often
enough; the prefetches sent are the lines behind the start distance, one stride apart, and the next
one goes on from the last. -/
structure FollowsStride (k : StrideKnobs) (e : StrideIndexEntry) (ep : Option Episode) : Prop where
  single : e.trained = true → e.numStates = 1 → ∃ ep', ep = some ep' ∧ e.stride 0 = ep'.stride ∧
    k.singleThresh ≤ ep'.count ∧
    ep'.sent = (List.range ep'.sent.length).map (fun n => ep'.line k (n + 1)) ∧
    e.prefLastIndex = ep'.line k ep'.sent.length
  distance : e.prefSent ≤ k.distance

/-- How often the stride of the access has been seen with it. -/
def countWith (e : StrideIndexEntry) (stride : BitVec 32) : ℤ :=
  if e.stride e.currState ≠ 0 ∧ e.stride e.currState = stride then e.sCnt e.currState + 1 else 1

/-- An access with which the count reaches the threshold finds the automaton in its first state, or
both strides the same, and its stride times the start distance is an int. -/
def Steady (k : StrideKnobs) (e : StrideIndexEntry) (lineIndex : Addr) : Prop :=
  e.trained = false → e.trainCountMode = false →
    k.singleThresh ≤ countWith e (strideOf e lineIndex) →
      ((e.currState : ℕ) = 0 ∨ ∀ i j, e.stride i = e.stride j) ∧
        (strideOf e lineIndex * k.startdistance).toInt =
          (strideOf e lineIndex).toInt * k.startdistance.toInt

instance steady_decidable (k : StrideKnobs) (e : StrideIndexEntry) (lineIndex : Addr) :
    Decidable (Steady k e lineIndex) := by
  unfold Steady
  infer_instance

/-! ## The loops -/

/-- The tries of a single stride send the lines behind the last one. -/
theorem sendSingle_spec (k : StrideKnobs) (accept : ℕ → Bool) (tries ii : ℕ) (ep : Episode)
    (n : ℕ) (hstride : e.stride 0 = ep.stride) (hlast : e.prefLastIndex = ep.line k n) :
    ∃ m : ℕ, e.sendSingle k accept ii tries =
        ({ e with prefLastIndex := ep.line k (n + m), prefSent := e.prefSent + m },
          (List.range m).map fun i => ep.line k (n + i + 1)) ∧
      e.prefSent + m ≤ max e.prefSent k.distance := by
  have hstop : ∀ (e : StrideIndexEntry) (n : ℕ), e.prefLastIndex = ep.line k n →
      ∃ m : ℕ, (e, ([] : List Addr)) =
          ({ e with prefLastIndex := ep.line k (n + m), prefSent := e.prefSent + m },
            (List.range m).map fun i => ep.line k (n + i + 1)) ∧
        e.prefSent + m ≤ max e.prefSent k.distance := by
    intro e n hlast
    refine ⟨0, ?_, ?_⟩
    · rw [Nat.add_zero, ← hlast, Nat.cast_zero, Int.add_zero]
      rfl
    · rw [Nat.cast_zero, Int.add_zero]
      exact le_max_left _ _
  induction tries generalizing ii n e with
  | zero => exact hstop e n hlast
  | succ tries ih =>
      unfold StrideIndexEntry.sendSingle
      by_cases hroom : e.prefSent < k.distance
      swap
      · rw [if_neg hroom]
        exact hstop e n hlast
      rw [if_pos hroom]
      cases accept ii with
      | false => exact hstop e n hlast
      | true =>
          have hnext : e.prefLastIndex + (e.stride 0).signExtend 64 = ep.line k (n + 1) := by
            rw [Episode.line_succ, hlast, hstride]
          have hrest := ih (e := { e with
            prefLastIndex := ep.line k (n + 1), prefSent := e.prefSent + 1 }) (ii + 1) (n + 1)
            hstride rfl
          obtain ⟨m, heq, hmost⟩ := hrest
          refine ⟨m + 1, ?_, ?_⟩
          · rw [if_pos rfl, hnext]
            dsimp only
            rw [heq, List.range_succ_eq_map, List.map_cons, List.map_map]
            have hindex : n + 1 + m = n + (m + 1) := by omega
            have hsent : e.prefSent + 1 + (m : ℤ) = e.prefSent + ((m + 1 : ℕ) : ℤ) := by
              push_cast
              omega
            have hlines : (fun i => ep.line k (n + 1 + i + 1)) =
                (fun i => ep.line k (n + i + 1)) ∘ Nat.succ := by
              funext i
              exact congrArg (fun j => ep.line k (j + 1)) (by omega)
            rw [hindex, hlines]
            dsimp only
            rw [hsent]
          · dsimp only at hmost
            push_cast
            omega

/-- What the steps of two strides change. -/
theorem aheadMulti_eq (e : StrideIndexEntry) : ∃ last count state, e.aheadMulti =
    { e with prefLastIndex := last, prefCount := count, prefCurrState := state } := by
  unfold StrideIndexEntry.aheadMulti
  split <;> exact ⟨_, _, _, rfl⟩

/-- Going ahead changes the place, the count and the state of the stride only. -/
theorem iterate_aheadMulti_eq (n : ℕ) (e : StrideIndexEntry) : ∃ last count state,
    StrideIndexEntry.aheadMulti^[n] e =
      { e with prefLastIndex := last, prefCount := count, prefCurrState := state } := by
  induction n generalizing e with
  | zero => exact ⟨_, _, _, rfl⟩
  | succ n ih =>
      rw [Function.iterate_succ_apply]
      obtain ⟨last, count, state, heq⟩ := aheadMulti_eq e
      rw [heq]
      obtain ⟨last', count', state', heq'⟩ := ih
        { e with prefLastIndex := last, prefCount := count, prefCurrState := state }
      exact ⟨last', count', state', heq'⟩

/-- Sending prefetches changes the place, the count and the state of the stride only. -/
theorem sendMulti_eq (k : StrideKnobs) (accept : ℕ → Bool) (tries ii : ℕ)
    (e : StrideIndexEntry) : ∃ last count state, ∃ m : ℕ,
    (e.sendMulti k accept ii tries).1 =
        { e with
          prefLastIndex := last
          prefCount := count
          prefCurrState := state
          prefSent := e.prefSent + m } ∧
      e.prefSent + m ≤ max e.prefSent k.distance := by
  have hstop : ∀ e : StrideIndexEntry, ∃ last count state, ∃ m : ℕ, e =
      { e with
        prefLastIndex := last
        prefCount := count
        prefCurrState := state
        prefSent := e.prefSent + m } ∧ e.prefSent + m ≤ max e.prefSent k.distance := by
    intro e
    refine ⟨e.prefLastIndex, e.prefCount, e.prefCurrState, 0, ?_, ?_⟩
    · rw [Nat.cast_zero, Int.add_zero]
    · rw [Nat.cast_zero, Int.add_zero]
      exact le_max_left _ _
  induction tries generalizing ii e with
  | zero => exact hstop e
  | succ tries ih =>
      unfold StrideIndexEntry.sendMulti
      by_cases hroom : e.prefSent < k.distance
      swap
      · rw [if_neg hroom]
        exact hstop e
      rw [if_pos hroom]
      cases accept ii with
      | false => exact hstop e
      | true =>
          obtain ⟨last, count, state, hahead⟩ := aheadMulti_eq e
          rw [if_pos rfl, hahead]
          obtain ⟨last', count', state', m, heq, hmost⟩ := ih (ii + 1)
            { e with
              prefLastIndex := last
              prefCount := count
              prefCurrState := state
              prefSent := e.prefSent + 1 }
          refine ⟨last', count', state', m + 1, ?_, ?_⟩
          · dsimp only at heq ⊢
            rw [heq]
            have hsent : e.prefSent + 1 + (m : ℤ) = e.prefSent + ((m + 1 : ℕ) : ℤ) := by
              push_cast
              omega
            rw [hsent]
          · dsimp only at hmost
            push_cast
            omega

/-! ## What is known of an entry -/

/-- An entry that is not trained: no count has reached the threshold, and the two strides are
checked only after both have been seen. -/
structure Learning (k : StrideKnobs) (e : StrideIndexEntry) : Prop where
  counts : ∀ c, 0 ≤ e.sCnt c ∧ e.sCnt c < max 1 k.singleThresh
  seen : ∀ c, e.stride c ≠ 0 → 1 ≤ e.sCnt c
  recnt : e.recnt < k.multiThresh
  normal : e.trainCountMode = false → e.recnt = 0 ∧ e.count = 0 ∧ (e.currState ≠ 0 → 1 ≤ e.sCnt 0)
  checking : e.trainCountMode = true → e.numStates = 2 ∧ 1 < k.singleThresh
  states : e.numStates = 1 ∨ e.numStates = 2
  sent : e.prefSent = 0

/-- What is known of an entry and the episode it is in. -/
structure Episodic (k : StrideKnobs) (e : StrideIndexEntry) (ep : Option Episode) : Prop where
  learning : e.trained = false → Learning k e
  single : e.trained = true → e.numStates = 1 → e.currState = 0 ∧ e.count = 0 ∧ 1 ≤ e.sCnt 0
  follows : FollowsStride k e ep
  sent : 0 ≤ e.prefSent

/-- An entry that has just been made. -/
theorem learning_create (hmulti : 1 ≤ k.multiThresh) (e : StrideIndexEntry) :
    Learning k (e.create lineIndex) where
  counts := fun _ => ⟨le_rfl, lt_of_lt_of_le one_pos (le_max_left _ _)⟩
  seen := fun _ h => absurd rfl h
  recnt := lt_of_lt_of_le one_pos hmulti
  normal := fun _ => ⟨rfl, rfl, fun h => absurd rfl h⟩
  checking := fun h => by cases h
  states := Or.inl rfl
  sent := rfl

/-- An entry that is untrained is learning. -/
theorem learning_untrain (hmulti : 1 ≤ k.multiThresh) (e : StrideIndexEntry) :
    Learning k e.untrain where
  counts := fun _ => ⟨le_rfl, lt_of_lt_of_le one_pos (le_max_left _ _)⟩
  seen := fun _ h => absurd rfl h
  recnt := lt_of_lt_of_le one_pos hmulti
  normal := fun _ => ⟨rfl, rfl, fun h => absurd rfl h⟩
  checking := fun h => by cases h
  states := Or.inl rfl
  sent := rfl

/-- An entry that is not trained is in no episode. -/
theorem Learning.tracked (h : Learning k e) (hdistance : 0 ≤ k.distance)
    (htrained : e.trained = false) (ep : Option Episode) : Episodic k e ep where
  learning := fun _ => h
  single := fun hnot => by
    rw [htrained] at hnot
    cases hnot
  follows :=
    { single := fun hnot => by
        rw [htrained] at hnot
        cases hnot
      distance := by
        rw [h.sent]
        exact hdistance }
  sent := h.sent.ge

/-! ## Learning -/

/-- An access in which the stride of the state is taken, or one that changes the state. -/
theorem learn_cases (e : StrideIndexEntry) (stride : BitVec 32) :
    e.learn k stride = { e with
        stride := Function.update e.stride e.currState stride
        sCnt := Function.update e.sCnt e.currState (countWith e stride) } ∨
      e.stride e.currState ≠ 0 ∧ ∃ mode : Bool, e.learn k stride = { e with
          strans := Function.update e.strans e.currState stride
          numStates := if e.numStates = 1 then 2 else e.numStates
          currState := 1 - e.currState
          trainCountMode := mode || e.trainCountMode
          count := if mode then 0 else e.count
          recnt := if mode then 0 else e.recnt } := by
  unfold StrideIndexEntry.learn
  by_cases hinit : e.stride e.currState = 0
  · have hcount : countWith e stride = 1 := if_neg fun h => h.1 hinit
    rw [if_pos hinit, hcount]
    exact Or.inl rfl
  rw [if_neg hinit]
  by_cases hsame : e.stride e.currState = stride
  · have hcount : countWith e stride = e.sCnt e.currState + 1 := if_pos ⟨hinit, hsame⟩
    rw [if_pos hsame, hcount]
    exact Or.inl rfl
  rw [if_neg hsame]
  cases hmode : k.singleStrideMode with
  | true =>
      have hcount : countWith e stride = 1 := if_neg fun h => hsame h.2
      rw [if_pos rfl, hcount]
      exact Or.inl rfl
  | false =>
      rw [if_neg Bool.false_ne_true]
      dsimp only
      by_cases hback : 1 - e.currState = 0
      · refine Or.inr ⟨hinit, true, ?_⟩
        rw [if_pos hback]
        rfl
      · refine Or.inr ⟨hinit, false, ?_⟩
        rw [if_neg hback]
        rfl

/-- The count with an access is positive, and it is one unless the stride has been seen. -/
theorem Learning.countWith_pos (h : Learning k e) (stride : BitVec 32) :
    1 ≤ countWith e stride := by
  have hcount := (h.counts e.currState).1
  unfold countWith
  split <;> omega

/-- The stride of the state is taken, and its count stays below the threshold. -/
theorem Learning.take (h : Learning k e) (hnormal : e.trainCountMode = false) {stride : BitVec 32}
    (hbelow : countWith e stride < k.singleThresh) :
    Learning k { e with
      stride := Function.update e.stride e.currState stride
      sCnt := Function.update e.sCnt e.currState (countWith e stride) } := by
  have hpos := h.countWith_pos stride
  refine ⟨fun c => ?_, fun c hc => ?_, h.recnt, fun _ => ⟨(h.normal hnormal).1,
    (h.normal hnormal).2.1, fun hstate => ?_⟩, fun hmode => ?_, h.states, h.sent⟩
  · dsimp only
    by_cases hcs : c = e.currState
    · subst hcs
      rw [Function.update_self]
      exact ⟨by omega, lt_of_lt_of_le hbelow (le_max_right _ _)⟩
    · rw [Function.update_of_ne hcs]
      exact h.counts c
  · dsimp only at hc ⊢
    by_cases hcs : c = e.currState
    · subst hcs
      rw [Function.update_self]
      exact hpos
    · rw [Function.update_of_ne hcs] at hc ⊢
      exact h.seen c hc
  · dsimp only at hstate ⊢
    rw [Function.update_of_ne (Ne.symm hstate)]
    exact (h.normal hnormal).2.2 hstate
  · change e.trainCountMode = true at hmode
    rw [hnormal] at hmode
    cases hmode

/-- The state changes.  The stride of the state has been seen, so that one repetition is not
enough. -/
theorem Learning.change (h : Learning k e) (hnormal : e.trainCountMode = false)
    (hmulti : 1 ≤ k.multiThresh) (stride : BitVec 32) (mode : Bool)
    (hseen : e.stride e.currState ≠ 0) :
    1 < k.singleThresh ∧ Learning k { e with
      strans := Function.update e.strans e.currState stride
      numStates := if e.numStates = 1 then 2 else e.numStates
      currState := 1 - e.currState
      trainCountMode := mode || e.trainCountMode
      count := if mode then 0 else e.count
      recnt := if mode then 0 else e.recnt } := by
  have hone := h.seen _ hseen
  have hbelow := (h.counts e.currState).2
  have hthresh : 1 < k.singleThresh := by
    rcases le_max_iff.mp hbelow.le with hle | hle <;> omega
  obtain ⟨hrecnt, hcount, -⟩ := h.normal hnormal
  have hstates : (if e.numStates = 1 then 2 else e.numStates) = 2 := by
    rcases h.states with hs | hs <;> rw [hs] <;> rfl
  refine ⟨hthresh, h.counts, h.seen, ?_, fun hmode' => ?_, fun _ => ⟨hstates, hthresh⟩,
    Or.inr hstates, h.sent⟩
  · dsimp only
    rw [hrecnt, ite_self]
    omega
  · have hfirst : mode = false := (Bool.or_eq_false_iff.mp hmode').1
    dsimp only
    rw [hrecnt, hcount, ite_self]
    refine ⟨rfl, rfl, fun hstate => ?_⟩
    -- the second state is entered from the first one
    have hzero : e.currState = 0 := by
      revert hstate
      generalize e.currState = c
      revert c
      decide
    rw [hzero] at hone
    exact hone

/-- An access while the strides are checked. -/
theorem Learning.check (h : Learning k e) (hmulti : 1 ≤ k.multiThresh)
    (hdistance : 0 ≤ k.distance) (htrained : e.trained = false) (hmode : e.trainCountMode = true)
    (stride : BitVec 32) (ep : Option Episode) :
    Episodic k (((e.check stride lineIndex).trainSingle k).trainMulti k) ep := by
  obtain ⟨hstates, hthresh⟩ := h.checking hmode
  have hnone : ∀ c, ¬ k.singleThresh ≤ e.sCnt c := fun c => by
    have hbelow := (h.counts c).2
    rcases le_max_iff.mp hbelow.le with hle | hle <;> omega
  -- both agreeing accesses count one more repetition, and may train the two strides
  have hagree : ∀ n state, Episodic k
      (({ e with recnt := e.recnt + 1, count := n, currState := state }.trainSingle k).trainMulti k)
      ep := by
    intro n state
    unfold StrideIndexEntry.trainSingle
    rw [if_neg (hnone state)]
    unfold StrideIndexEntry.trainMulti
    dsimp only
    split
    · obtain ⟨last, count, current, heq⟩ := iterate_aheadMulti_eq k.startdistance.toInt.toNat
        { e with
          trained := true
          recnt := e.recnt + 1
          count := n
          currState := state
          prefCount := n
          prefCurrState := state
          prefLastIndex := e.lastIndex }
      rw [heq]
      have hnot : e.numStates ≠ 1 := by omega
      exact
        { learning := fun hfalse => by cases hfalse
          single := fun _ hone => absurd hone hnot
          follows :=
            { single := fun _ hone => absurd hone hnot
              distance := h.sent.trans_le hdistance }
          sent := h.sent.ge }
    · next hbelow =>
      have hlearning : Learning k
          { e with recnt := e.recnt + 1, count := n, currState := state } := by
        refine ⟨h.counts, h.seen, not_le.mp hbelow, fun hfalse => ?_, h.checking, h.states, h.sent⟩
        change e.trainCountMode = false at hfalse
        rw [hmode] at hfalse
        cases hfalse
      exact hlearning.tracked hdistance htrained ep
  unfold StrideIndexEntry.check
  split
  · exact hagree (e.count + 1) e.currState
  · split
    · exact hagree 0 (1 - e.currState)
    · have hzero : ¬ k.singleThresh ≤ (e.create lineIndex).sCnt (e.create lineIndex).currState :=
        not_le.mpr (one_pos.trans hthresh)
      have hrecnt : ¬ k.multiThresh ≤ (e.create lineIndex).recnt :=
        not_le.mpr (lt_of_lt_of_le one_pos hmulti)
      unfold StrideIndexEntry.trainSingle
      rw [if_neg hzero]
      unfold StrideIndexEntry.trainMulti
      rw [if_neg hrecnt]
      exact (learning_create hmulti e).tracked hdistance rfl ep

/-- An access while the strides are learnt. -/
theorem Learning.learn (h : Learning k e) (hmulti : 1 ≤ k.multiThresh) (hdistance : 0 ≤ k.distance)
    (htrained : e.trained = false) (hnormal : e.trainCountMode = false) {stride : BitVec 32}
    (hsteady : k.singleThresh ≤ countWith e stride → (e.currState = 0 ∨ e.stride 0 = e.stride 1) ∧
      (stride * k.startdistance).toInt = stride.toInt * k.startdistance.toInt) :
    Episodic k (((e.learn k stride).trainSingle k).trainMulti k)
      (if (((e.learn k stride).trainSingle k).trainMulti k).trained then
        some ⟨e.lastIndex, (e.learn k stride).stride (e.learn k stride).currState,
          (e.learn k stride).sCnt (e.learn k stride).currState, []⟩
      else none) := by
  obtain ⟨hrecnt, hcount, hfirst⟩ := h.normal hnormal
  rcases learn_cases (k := k) e stride with heq | ⟨hseen, mode, heq⟩
  · rw [heq]
    unfold StrideIndexEntry.trainSingle
    dsimp only
    have hiff : k.singleThresh ≤ Function.update e.sCnt e.currState (countWith e stride)
        e.currState ↔ k.singleThresh ≤ countWith e stride := by rw [Function.update_self]
    have hnot : ¬ k.multiThresh ≤ e.recnt := by
      have hbelow := h.recnt
      omega
    by_cases hreached : k.singleThresh ≤ countWith e stride
    · obtain ⟨hstate, hproduct⟩ := hsteady hreached
      rw [if_pos (hiff.mpr hreached)]
      unfold StrideIndexEntry.trainMulti
      dsimp only
      rw [if_neg hnot, if_pos rfl]
      -- in either state the stride of the first one is the one that was counted
      have hstride : Function.update e.stride e.currState stride 0 = stride := by
        by_cases hzero : e.currState = 0
        · rw [hzero, Function.update_self]
        · have hthresh : 1 < k.singleThresh := by
            have hone := hfirst hzero
            have hbelow := (h.counts 0).2
            rcases le_max_iff.mp hbelow.le with hle | hle <;> omega
          have hseen : e.stride e.currState ≠ 0 ∧ e.stride e.currState = stride := by
            by_contra hnone
            rw [countWith, if_neg hnone] at hreached
            omega
          have hone : e.currState = 1 := by
            revert hzero
            generalize e.currState = c
            revert c
            decide
          rw [Function.update_of_ne (Ne.symm hzero), hstate.resolve_left hzero, ← hone]
          exact hseen.2
      have hcounted : 1 ≤ Function.update e.sCnt e.currState (countWith e stride) 0 := by
        by_cases hzero : e.currState = 0
        · rw [hzero, Function.update_self]
          exact h.countWith_pos stride
        · rw [Function.update_of_ne (Ne.symm hzero)]
          exact hfirst hzero
      refine
        { learning := fun hfalse => by cases hfalse
          single := fun _ _ => ⟨rfl, hcount, hcounted⟩
          follows :=
            { single := fun _ _ => ⟨_, rfl, ?_, hiff.mpr hreached, rfl, ?_⟩
              distance := h.sent.trans_le hdistance }
          sent := h.sent.ge }
      · simp only [Function.update_self, hstride]
      · simp only [Function.update_self, hstride, List.length_nil, Episode.line_zero,
          signExtend_mul hproduct]
    · rw [if_neg (mt hiff.mp hreached)]
      unfold StrideIndexEntry.trainMulti
      rw [if_neg hnot]
      exact (h.take hnormal (not_le.mp hreached)).tracked hdistance htrained _
  · obtain ⟨hthresh, hlearning⟩ := h.change hnormal hmulti stride mode hseen
    rw [heq]
    have hnone : ¬ k.singleThresh ≤ e.sCnt (1 - e.currState) := by
      have hbelow := (h.counts (1 - e.currState)).2
      rcases le_max_iff.mp hbelow.le with hle | hle <;> omega
    unfold StrideIndexEntry.trainSingle
    rw [if_neg hnone]
    unfold StrideIndexEntry.trainMulti
    rw [if_neg (not_le.mpr hlearning.recnt)]
    exact hlearning.tracked hdistance htrained _

/-! ## Prefetching -/

/-- An access to a trained entry. -/
theorem Episodic.follow {ep : Option Episode} (h : Episodic k e ep) (hmulti : 1 ≤ k.multiThresh)
    (hdistance : 0 ≤ k.distance) (htrained : e.trained = true) (stride : BitVec 32) :
    Episodic k (e.follow k accept stride).1
      (if (e.follow k accept stride).1.trained then
        ep.map fun ep => { ep with sent := ep.sent ++ (e.follow k accept stride).2 }
      else none) := by
  have hsent := h.sent
  have hroom := h.follows.distance
  obtain ⟨sent, hsent_eq, hsent_nonneg, hsent_le⟩ : ∃ sent : ℤ,
      (if e.prefSent ≠ 0 then e.prefSent - 1 else e.prefSent) = sent ∧ 0 ≤ sent ∧
        sent ≤ k.distance := by
    refine ⟨_, rfl, ?_⟩
    split <;> omega
  unfold StrideIndexEntry.follow
  rw [hsent_eq]
  dsimp only
  by_cases hsingle : e.numStates = 1 ∧ stride = e.stride 0
  · rw [if_pos hsingle]
    obtain ⟨ep', rfl, hstride, hcount, hlines, hlast⟩ := h.follows.single htrained hsingle.1
    obtain ⟨m, heq, hmost⟩ := sendSingle_spec k accept
      (e := { e with prefSent := sent }) k.degree.toNat 0 ep' ep'.sent.length hstride hlast
    rw [heq]
    dsimp only at hmost ⊢
    rw [htrained, if_pos rfl]
    refine
      { learning := fun hfalse => by cases hfalse
        single := fun _ hone => h.single htrained hone
        follows :=
          { single := fun _ _ => ⟨_, rfl, hstride, hcount, ?_, ?_⟩
            distance := hmost.trans (max_le hsent_le le_rfl) }
        sent := Int.add_nonneg hsent_nonneg (Int.natCast_nonneg m) }
    · dsimp only
      rw [List.length_append, List.length_map, List.length_range, List.range_add, List.map_append,
        List.map_map]
      exact congrArg₂ _ hlines rfl
    · dsimp only
      rw [List.length_append, List.length_map, List.length_range]
      rfl
  rw [if_neg hsingle]
  split
  · next hmatch =>
    have hnot : e.numStates ≠ 1 := by
      intro hone
      obtain ⟨hstate, hcount, hpos⟩ := h.single htrained hone
      rw [hstate, hcount] at hmatch
      rcases hmatch with hmatch | hmatch
      · exact hsingle ⟨hone, hmatch.1⟩
      · omega
    -- whatever is verified first, the entry stays one of two strides
    have hkept : ∀ n state ep, Episodic k (({ e with
        prefSent := sent, count := n, currState := state }.sendMulti k accept 0
          k.degree.toNat).1) ep := by
      intro n state ep
      obtain ⟨last, count, current, m, heq, hmost⟩ := sendMulti_eq k accept
        k.degree.toNat 0 { e with prefSent := sent, count := n, currState := state }
      rw [heq]
      exact
        { learning := fun hfalse => by
            rw [htrained] at hfalse
            cases hfalse
          single := fun _ hone => absurd hone hnot
          follows :=
            { single := fun _ hone => absurd hone hnot
              distance := hmost.trans (max_le hsent_le le_rfl) }
          sent := Int.add_nonneg hsent_nonneg (Int.natCast_nonneg m) }
    split
    · exact hkept 0 (1 - e.currState) _
    · exact hkept (e.count + 1) e.currState _
  · exact (learning_untrain hmulti _).tracked hdistance rfl _

/-! ## All accesses -/

/-- An access keeps what is known of the entry and its episode. -/
theorem Episodic.access {ep : Option Episode} (h : Episodic k e ep) (hmulti : 1 ≤ k.multiThresh)
    (hdistance : 0 ≤ k.distance) (hsteady : Steady k e lineIndex) :
    Episodic k (e.access k accept lineIndex).1 (episodeAfter k accept e lineIndex ep) := by
  unfold episodeAfter
  dsimp only
  cases htrained : e.trained with
  | true =>
      have hsame : Episodic k { e with lastIndex := lineIndex } ep :=
        ⟨fun hfalse => Bool.noConfusion (htrained.symm.trans hfalse), h.single,
          ⟨h.follows.single, h.follows.distance⟩, h.sent⟩
      have haccess : e.access k accept lineIndex =
          StrideIndexEntry.follow k accept { e with lastIndex := lineIndex }
            (strideOf e lineIndex) := by
        unfold StrideIndexEntry.access
        exact if_pos htrained
      rw [haccess, if_pos rfl]
      exact hsame.follow hmulti hdistance htrained _
  | false =>
      have hlearning := h.learning htrained
      have hsame : Learning k { e with lastIndex := lineIndex } :=
        ⟨hlearning.counts, hlearning.seen, hlearning.recnt, hlearning.normal, hlearning.checking,
          hlearning.states, hlearning.sent⟩
      have haccess : e.access k accept lineIndex =
          (((learnt k e lineIndex).trainSingle k).trainMulti k, []) := by
        unfold StrideIndexEntry.access
        exact if_neg (Bool.eq_false_iff.mp htrained)
      rw [haccess, if_neg Bool.false_ne_true]
      dsimp only
      cases hmode : e.trainCountMode with
      | true =>
          have hlearnt : learnt k e lineIndex =
              StrideIndexEntry.check { e with lastIndex := lineIndex } (strideOf e lineIndex)
                lineIndex := if_pos hmode
          rw [hlearnt]
          exact hsame.check hmulti hdistance htrained hmode _ _
      | false =>
          have hlearnt : learnt k e lineIndex =
              StrideIndexEntry.learn k { e with lastIndex := lineIndex }
                (strideOf e lineIndex) := if_neg (Bool.eq_false_iff.mp hmode)
          rw [hlearnt]
          refine hsame.learn hmulti hdistance htrained hmode fun hcount => ?_
          obtain ⟨hstate, hint⟩ := hsteady htrained hmode hcount
          exact ⟨hstate.imp (fun h => Fin.ext h) fun h => h 0 1, hint⟩

end StrideIndexEntry

namespace PrefStride

open StrideIndexEntry

variable {k : StrideKnobs} {s s' : PrefStride} {episodes : ℕ → Option Episode} {x : StrideAccess}
  {prefetches : List Addr}

/-- The episodes of the entries after a call. -/
def episodesAfter (k : StrideKnobs) (s : PrefStride) (episodes : ℕ → Option Episode)
    (x : StrideAccess) : ℕ → Option Episode :=
  match s.findRegion k x.tid (x.lineAddr >>> k.regionBits) with
  | some i => Function.update episodes i
      (episodeAfter k x.accept (s.index i) (x.lineAddr >>> k.lineBits) (episodes i))
  | none =>
      if x.l2Hit then episodes
      else
        match s.victim k with
        | some v => Function.update episodes v none
        | none => episodes

/-- The runs in which every access is steady, from new tables. -/
inductive SteadyRun (k : StrideKnobs) : PrefStride → (ℕ → Option Episode) → Prop
  | init (uninit : PrefStride) : SteadyRun k (PrefStride.init uninit) fun _ => none
  | train {s s' : PrefStride} {episodes : ℕ → Option Episode} {x : StrideAccess}
      {prefetches : List Addr} (h : SteadyRun k s episodes)
      (hsteady : ∀ i, s.findRegion k x.tid (x.lineAddr >>> k.regionBits) = some i →
        Steady k (s.index i) (x.lineAddr >>> k.lineBits))
      (htrain : s.train k x = some (s', prefetches)) :
      SteadyRun k s' (episodesAfter k s episodes x)

/-- What is known of all entries. -/
theorem tracked_of_steadyRun (hmulti : 1 ≤ k.multiThresh) (hdistance : 0 ≤ k.distance)
    (h : SteadyRun k s episodes) :
    ∀ i, (s.region i).valid = true → Episodic k (s.index i) (episodes i) := by
  induction h with
  | init uninit =>
      intro i hvalid
      cases hvalid
  | @train s s' episodes x prefetches _ hsteady htrain ih =>
      intro i hvalid
      unfold episodesAfter
      unfold PrefStride.train at htrain
      dsimp only at htrain
      cases hfind : s.findRegion k x.tid (x.lineAddr >>> k.regionBits) with
      | some j =>
          rw [hfind] at htrain
          cases htrain
          dsimp only at hvalid ⊢
          by_cases hij : i = j
          · subst hij
            rw [Function.update_self] at hvalid ⊢
            rw [Function.update_self]
            exact (ih i hvalid).access hmulti hdistance (hsteady i hfind)
          · rw [Function.update_of_ne hij] at hvalid ⊢
            rw [Function.update_of_ne hij]
            exact ih i hvalid
      | none =>
          rw [hfind] at htrain
          dsimp only at htrain ⊢
          cases hhit : x.l2Hit with
          | true =>
              rw [hhit] at htrain
              cases htrain
              exact ih i hvalid
          | false =>
              rw [hhit] at htrain
              cases hvictim : s.victim k with
              | none =>
                  rw [hvictim] at htrain
                  cases htrain
              | some v =>
                  rw [hvictim] at htrain
                  cases htrain
                  unfold PrefStride.createNewentry at hvalid ⊢
                  dsimp only at hvalid ⊢
                  rw [if_neg Bool.false_ne_true]
                  by_cases hiv : i = v
                  · subst hiv
                    rw [Function.update_self, Function.update_self]
                    exact (learning_create hmulti _).tracked hdistance rfl none
                  · rw [Function.update_of_ne hiv] at hvalid ⊢
                    rw [Function.update_of_ne hiv]
                    exact ih i hvalid

/-- In every run whose accesses are steady, in both modes and across all episodes, each entry that
is trained by a single stride follows the stride that was seen often enough, and no more
prefetches are ahead than the distance allows. -/
theorem stride_followed (hmulti : 1 ≤ k.multiThresh) (hdistance : 0 ≤ k.distance)
    (h : SteadyRun k s episodes) (i : ℕ) (hvalid : (s.region i).valid = true) :
    FollowsStride k (s.index i) (episodes i) :=
  (tracked_of_steadyRun hmulti hdistance h i hvalid).follows

/-- The default configuration, with a table of one entry and lines of 64 bytes. -/
def oneEntry : StrideKnobs := { twoEntries with tableN := 1 }

/-- An access to a line, with room in the queue. -/
def lineAccess (line : Addr) : StrideAccess where
  tid := 0
  lineAddr := line <<< 6
  l2Hit := false
  cycle := 0
  accept := fun _ => true

/-- An access to a line, with the episodes. -/
def lineStep (z : PrefStride × (ℕ → Option Episode)) (line : Addr) :
    Option (PrefStride × (ℕ → Option Episode)) :=
  (z.1.train oneEntry (lineAccess line)).map fun y =>
    (y.1, episodesAfter oneEntry z.1 z.2 (lineAccess line))

/-- The tables after accesses to lines, with the episodes. -/
def afterLines (lines : List Addr) : Option (PrefStride × (ℕ → Option Episode)) :=
  lines.foldlM lineStep (PrefStride.init zeroTables, fun _ => none)

/-- An access to a line is steady. -/
def SteadyLine (z : PrefStride × (ℕ → Option Episode)) (line : Addr) : Prop :=
  Ensures (z.1.findRegion oneEntry 0 ((lineAccess line).lineAddr >>> oneEntry.regionBits)) fun i =>
    Steady oneEntry (z.1.index i) ((lineAccess line).lineAddr >>> oneEntry.lineBits)

instance (z : PrefStride × (ℕ → Option Episode)) (line : Addr) : Decidable (SteadyLine z line) := by
  unfold SteadyLine
  infer_instance

/-- Steady accesses to lines are a steady run. -/
theorem steadyRun_afterLines {lines : List Addr} {z : PrefStride × (ℕ → Option Episode)}
    (hsteady : EachStep lineStep SteadyLine (PrefStride.init zeroTables, fun _ => none) lines)
    (h : afterLines lines = some z) : SteadyRun oneEntry z.1 z.2 := by
  refine EachStep.invariant (I := fun z => SteadyRun oneEntry z.1 z.2) ?_ (.init zeroTables)
    hsteady h
  intro z line _ z' hz hline hstep
  obtain ⟨⟨s', prefetches⟩, htrain, rfl⟩ := Option.map_eq_some_iff.mp hstep
  exact .train hz (fun i hfind => hline i hfind) htrain

/-- Nine lines in a row: the seventh trains the entry with the stride 1, and the last two send four
prefetches each, from two lines behind it on. -/
theorem stride_followed_nine_lines :
    ∃ z, afterLines [100, 101, 102, 103, 104, 105, 106, 107, 108] = some z ∧
      (z.1.index 0).trained = true ∧
      (z.2 0).map (fun ep => (ep.start, ep.stride, ep.sent)) =
        some (106, 1, [108, 109, 110, 111, 112, 113, 114, 115]) ∧
      FollowsStride oneEntry (z.1.index 0) (z.2 0) := by
  have hseen : (afterLines [100, 101, 102, 103, 104, 105, 106, 107, 108]).map (fun z =>
      ((z.1.region 0).valid, (z.1.index 0).trained)) = some (true, true) := by decide +kernel
  have hepisode : (afterLines [100, 101, 102, 103, 104, 105, 106, 107, 108]).map (fun z =>
      (z.2 0).map fun ep => (ep.start, ep.stride, ep.sent)) =
      some (some (106, 1, [108, 109, 110, 111, 112, 113, 114, 115])) := by decide +kernel
  obtain ⟨z, hrun, hstate⟩ := Option.map_eq_some_iff.mp hseen
  obtain ⟨hvalid, htrained⟩ := Prod.mk.inj hstate
  rw [hrun, Option.map_some, Option.some.injEq] at hepisode
  have hsteady := steadyRun_afterLines (by decide +kernel) hrun
  exact ⟨z, hrun, htrained, hepisode, stride_followed (by decide) (by decide) hsteady 0 hvalid⟩

/-- Three repetitions of the stride 1, a transition, and six repetitions of the stride 2: the entry
is trained by the second stride, and follows the first one. -/
theorem second_stride_not_followed :
    ∃ z, afterLines [100, 101, 102, 103, 110, 112, 114, 116, 118, 120, 122] = some z ∧
      (z.1.index 0).trained = true ∧ (z.1.index 0).numStates = 1 ∧
      (z.1.index 0).stride 0 = 1 ∧ (z.2 0).map Episode.stride = some 2 ∧
      ¬ FollowsStride oneEntry (z.1.index 0) (z.2 0) := by
  have hseen : (afterLines [100, 101, 102, 103, 110, 112, 114, 116, 118, 120, 122]).map (fun z =>
      ((z.1.index 0).trained, (z.1.index 0).numStates, (z.1.index 0).stride 0,
        (z.2 0).map Episode.stride)) = some (true, 1, 1, some 2) := by
    decide +kernel
  obtain ⟨z, hrun, hstate⟩ := Option.map_eq_some_iff.mp hseen
  simp only [Prod.mk.injEq] at hstate
  obtain ⟨htrained, hstates, hstride, hepisode⟩ := hstate
  refine ⟨z, hrun, htrained, hstates, hstride, hepisode, fun h => ?_⟩
  obtain ⟨ep, heq, hsame, -⟩ := h.single htrained hstates
  rw [heq, Option.map_some, ← hsame, hstride] at hepisode
  revert hepisode
  decide

end PrefStride

end MacSim.Analysis
