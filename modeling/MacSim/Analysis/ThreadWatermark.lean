import MacSim.Model.FetchThreads

/-!
# The watermark of the terminated threads

However the threads of a core end, the watermark is the least id that has not ended, and the
table holds the ids above it that have.
-/

set_option autoImplicit false

namespace MacSim.Analysis

open MacSim.Model

namespace FetchCore

/-! ## The loop -/

/-- The loop stops at the first id that is not in the table, and takes those before it out. -/
theorem advanceTid_spec {rounds : ℕ} (t : ℕ) {ids : List ℕ} (h : ids.length ≤ rounds) :
    t ≤ (FetchCore.advanceTid rounds t ids).1 ∧
      (∀ i, t ≤ i → i < (FetchCore.advanceTid rounds t ids).1 → i ∈ ids) ∧
      (FetchCore.advanceTid rounds t ids).1 ∉ ids ∧
      ∀ i, i ∈ (FetchCore.advanceTid rounds t ids).2 ↔
        i ∈ ids ∧ ¬ (t ≤ i ∧ i < (FetchCore.advanceTid rounds t ids).1) := by
  induction rounds generalizing t ids with
  | zero =>
      obtain rfl := List.length_eq_zero_iff.mp (Nat.le_zero.mp h)
      refine ⟨le_rfl, fun i hi hlt => ?_, List.not_mem_nil, fun i => ?_⟩
      · change i < t at hlt
        omega
      · exact iff_of_false List.not_mem_nil fun hi => List.not_mem_nil hi.1
  | succ rounds ih =>
      unfold FetchCore.advanceTid
      by_cases ht : t ∈ ids
      · rw [if_pos ht]
        have hshort : (ids.filter (· ≠ t)).length ≤ rounds := by
          have hlt : (ids.filter (· ≠ t)).length < ids.length :=
            List.length_filter_lt_length_iff_exists.mpr ⟨t, ht, by simp⟩
          omega
        obtain ⟨hle, htaken, hstop, hleft⟩ := ih (t + 1) hshort
        generalize FetchCore.advanceTid rounds (t + 1) (ids.filter (· ≠ t)) = x at *
        simp only [List.mem_filter, decide_eq_true_eq] at htaken hstop hleft
        refine ⟨by omega, fun i hi hlt => ?_, fun hx => hstop ⟨hx, by omega⟩, fun i => ?_⟩
        · rcases Nat.eq_or_lt_of_le hi with rfl | hlow
          · exact ht
          · exact (htaken i hlow hlt).1
        · rw [hleft i, and_assoc, and_congr_right_iff]
          intro _
          omega
      · rw [if_neg ht]
        refine ⟨le_rfl, fun i hi hlt => ?_, ht, fun i => ?_⟩
        · change i < t at hlt
          omega
        · refine (and_iff_left ?_).symm
          change ¬ (t ≤ i ∧ i < t)
          omega

/-! ## The invariant -/

/-- A thread that was scheduled has ended. -/
def Terminated (s : FetchCore) (t : ℕ) : Prop :=
  t < s.uniqueScheduledThreadNum ∧ s.threadReachEnd t = true

/-- The watermark is the least id that has not ended, and the table holds the ids above it that
have. -/
structure Watermark (s : FetchCore) : Prop where
  least : IsLeast {t | ¬ Terminated s t} s.lastTerminatedTid
  table : ∀ t, t ∈ s.terminatedTid ↔ Terminated s t ∧ s.lastTerminatedTid < t

/-- What lies below the watermark has terminated. -/
theorem Watermark.terminated {s : FetchCore} (h : Watermark s) {t : ℕ}
    (ht : t < s.lastTerminatedTid) : Terminated s t :=
  not_not.mp fun hlive => absurd (h.least.2 hlive) (Nat.not_le.mpr ht)

/-- What has not ended is not below the watermark. -/
theorem Watermark.visited {s : FetchCore} (h : Watermark s) {t : ℕ}
    (ht : t < s.uniqueScheduledThreadNum) (hlive : ¬ Terminated s t) : t ∈ s.visited := by
  have hle := h.least.2 hlive
  rw [FetchCore.visited, List.mem_range'_1]
  omega

/-- Only the threads and the watermark matter. -/
theorem Watermark.of_same {s s' : FetchCore} (h : Watermark s)
    (hterminated : ∀ t, Terminated s' t ↔ Terminated s t)
    (hlast : s'.lastTerminatedTid = s.lastTerminatedTid)
    (htable : s'.terminatedTid = s.terminatedTid) : Watermark s' := by
  refine ⟨?_, fun t => ?_⟩
  · have hset : {t | ¬ Terminated s' t} = {t | ¬ Terminated s t} :=
      Set.ext fun t => not_congr (hterminated t)
    rw [hset, hlast]
    exact h.least
  · rw [htable, hterminated, hlast]
    exact h.table t

/-- A new core has its watermark right. -/
theorem watermark_new : Watermark FetchCore.new where
  least := ⟨fun h => absurd h.1 (Nat.not_lt_zero _), fun _ _ => Nat.zero_le _⟩
  table := fun _ => iff_of_false List.not_mem_nil fun h => absurd h.1.1 (Nat.not_lt_zero _)

/-- A new thread has not ended. -/
theorem Watermark.create {s : FetchCore} (h : Watermark s) : Watermark s.createTraceInfo := by
  refine h.of_same (fun t => ?_) rfl rfl
  unfold Terminated FetchCore.createTraceInfo
  dsimp only
  by_cases ht : t = s.uniqueScheduledThreadNum
  · subst ht
    rw [Function.update_self]
    exact iff_of_false (fun h => Bool.false_ne_true h.2) fun h => absurd h.1 (lt_irrefl _)
  · rw [Function.update_of_ne ht]
    refine and_congr_left fun _ => ?_
    omega

/-- The last uop of a thread retires. -/
theorem Watermark.reachEnd {s : FetchCore} (h : Watermark s) {tid : ℕ}
    (htid : tid < s.uniqueScheduledThreadNum) (hrunning : s.threadReachEnd tid = false) :
    Watermark (s.reachEnd tid) := by
  have hhigh : s.lastTerminatedTid ≤ tid := h.least.2 fun hended => by
    obtain ⟨-, hreach⟩ := hended
    rw [hrunning] at hreach
    exact Bool.false_ne_true hreach
  have hended : ∀ t, Terminated (s.reachEnd tid) t ↔ t = tid ∨ Terminated s t := by
    intro t
    unfold Terminated
    change t < s.uniqueScheduledThreadNum ∧ Function.update s.threadReachEnd tid true t = true ↔ _
    by_cases ht : t = tid
    · subst ht
      rw [Function.update_self]
      exact iff_of_true ⟨htid, rfl⟩ (.inl rfl)
    · rw [Function.update_of_ne ht]
      exact (or_iff_right ht).symm
  have hids : ∀ t, t ∈ tid :: s.terminatedTid.filter (· ≠ tid) ↔
      t = tid ∨ Terminated s t ∧ s.lastTerminatedTid < t := by
    intro t
    rw [List.mem_cons, List.mem_filter, h.table]
    by_cases ht : t = tid <;> simp [ht]
  obtain ⟨hle, htaken, hstop, hleft⟩ :=
    advanceTid_spec s.lastTerminatedTid (le_refl (tid :: s.terminatedTid.filter (· ≠ tid)).length)
  have hlive : ¬ Terminated s s.lastTerminatedTid := h.least.1
  refine ⟨⟨fun hlast => hstop ?_, fun t ht => ?_⟩, fun t => ?_⟩
  · -- the id at which the loop stops is not in the table, and not below the old watermark
    rw [hids]
    rcases (hended _).mp hlast with heq | hold
    · exact Or.inl heq
    · refine Or.inr ⟨hold, lt_of_le_of_ne hle fun heq => hlive ?_⟩
      rw [heq]
      exact hold
  · by_contra hlt
    have hlt := Nat.not_le.mp hlt
    refine ht ((hended t).mpr ?_)
    rcases Nat.lt_or_ge t s.lastTerminatedTid with hlow | hhigh
    · exact Or.inr (h.terminated hlow)
    · exact ((hids t).mp (htaken t hhigh hlt)).imp_right And.left
  · rw [hended]
    refine (hleft t).trans ?_
    rw [hids]
    change _ ↔ _ ∧ (FetchCore.advanceTid _ _ _).1 < t
    generalize (FetchCore.advanceTid _ _ _).1 = last at *
    have hne : t = tid ∨ Terminated s t ∧ s.lastTerminatedTid < t → t ≠ last := by
      rintro ht rfl
      exact hstop ((hids t).mpr ht)
    constructor
    · rintro ⟨ht, hnot⟩
      have hne := hne ht
      refine ⟨ht.imp_right And.left, ?_⟩
      rcases ht with rfl | ⟨-, hlt⟩ <;> omega
    · rintro ⟨ht, hlt⟩
      refine ⟨ht.imp_right fun hold => ⟨hold, by omega⟩, by omega⟩

/-! ## All runs -/

/-- A walk through the threads moves the arbiter, nothing else. -/
theorem nextCandidate_snd (s : FetchCore) : ∃ arbiter failed, s.nextCandidate.2 =
    { s with fetchArbiter := arbiter, lastFetchTidFailed := failed } := ⟨_, _, rfl⟩

/-- Trying to fetch moves the arbiter and notes a failure, and nothing else. -/
theorem tryFetch_snd (c : FetchChecks) (tries : ℕ) (s : FetchCore) : ∃ arbiter failed,
    (FetchCore.tryFetch c tries s).2 =
      { s with fetchArbiter := arbiter, lastFetchTidFailed := failed } := by
  induction tries generalizing s with
  | zero => exact ⟨_, _, rfl⟩
  | succ tries ih =>
      unfold FetchCore.tryFetch
      dsimp only
      split
      · exact nextCandidate_snd s
      · obtain ⟨arbiter, failed, hrest⟩ := ih s.nextCandidate.2
        exact ⟨arbiter, failed, hrest⟩

/-- A round of fetches moves the arbiter and notes a failure, and nothing else. -/
theorem fetchRr_snd (c : FetchChecks) (s : FetchCore) : ∃ arbiter failed, (s.fetchRr c).2 =
    { s with fetchArbiter := arbiter, lastFetchTidFailed := failed } := by
  unfold FetchCore.fetchRr
  split
  · exact ⟨_, _, rfl⟩
  · exact tryFetch_snd c _ s

/-- The rest of a retirement does not change which threads have ended. -/
theorem terminate_eq {s s' : FetchCore} {tid : ℕ} (h : s.terminate tid = some s') :
    ∃ num ended, s' = { s.reachEnd tid with fetchingThreadNum := num, fetchEnded := ended } := by
  unfold FetchCore.terminate at h
  dsimp only at h
  split at h
  · split at h <;> cases h <;> exact ⟨_, _, rfl⟩
  · cases h

/-- The fetch of a thread ends once. -/
theorem step_endFetch {s s' : FetchCore} {tid : ℕ} (h : s.step (.endFetch tid) = some s') :
    (tid < s.uniqueScheduledThreadNum ∧ s.fetchEnded tid = false) ∧ s.endFetch tid = s' := by
  simpa only [FetchCore.step, Option.ite_none_right_eq_some, Option.some.injEq] using h

/-- A thread terminates once. -/
theorem step_terminate {s s' : FetchCore} {tid : ℕ} (h : s.step (.terminate tid) = some s') :
    (tid < s.uniqueScheduledThreadNum ∧ s.threadReachEnd tid = false) ∧
      s.terminate tid = some s' := by
  simpa only [FetchCore.step, Option.ite_none_right_eq_some] using h

/-- Each step keeps the watermark right. -/
theorem Watermark.step {s s' : FetchCore} (h : Watermark s) {a : FetchCore.FetchAct}
    (hstep : s.step a = some s') : Watermark s' := by
  cases a with
  | create =>
      cases hstep
      exact h.create
  | endFetch tid =>
      obtain ⟨-, rfl⟩ := step_endFetch hstep
      exact h.of_same (fun _ => Iff.rfl) rfl rfl
  | terminate tid =>
      obtain ⟨hlive, hrest⟩ := step_terminate hstep
      obtain ⟨num, ended, rfl⟩ := terminate_eq hrest
      exact (h.reachEnd hlive.1 hlive.2).of_same (fun _ => Iff.rfl) rfl rfl
  | fetch c =>
      cases hstep
      obtain ⟨arbiter, failed, heq⟩ := fetchRr_snd c s
      rw [heq]
      exact h.of_same (fun _ => Iff.rfl) rfl rfl
  | stall =>
      cases hstep
      exact h.of_same (fun _ => Iff.rfl) rfl rfl

/-- The watermark is right in every reachable state. -/
theorem watermark_of_reachable {s : FetchCore} (h : FetchCore.Reachable s) : Watermark s := by
  induction h with
  | new => exact watermark_new
  | step a _ hstep ih => exact ih.step hstep

/-- Whenever the data of a thread is deallocated, in whatever order the threads end, the watermark
is the least id that has not ended, the table holds the ids above it that have, and a loop over
all threads visits every thread that has not ended. -/
theorem watermark_tracks_terminated {s : FetchCore} (h : FetchCore.Reachable s) {tid : ℕ}
    (htid : tid < s.uniqueScheduledThreadNum) (hrunning : s.threadReachEnd tid = false) :
    IsLeast {t | ¬ Terminated (s.reachEnd tid) t} (s.reachEnd tid).lastTerminatedTid ∧
      (∀ t, t ∈ (s.reachEnd tid).terminatedTid ↔
        Terminated (s.reachEnd tid) t ∧ (s.reachEnd tid).lastTerminatedTid < t) ∧
      ∀ t < (s.reachEnd tid).uniqueScheduledThreadNum, ¬ Terminated (s.reachEnd tid) t →
        t ∈ (s.reachEnd tid).visited := by
  have hmark := (watermark_of_reachable h).reachEnd htid hrunning
  exact ⟨hmark.least, hmark.table, fun t ht hlive => hmark.visited ht hlive⟩

/-- Two threads, of which the second one ends first. -/
theorem watermark_tracks_terminated_second :
    IsLeast {t | ¬ Terminated (FetchCore.new.createTraceInfo.createTraceInfo.reachEnd 1) t} 0 ∧
      (∀ t, t ∈ (FetchCore.new.createTraceInfo.createTraceInfo.reachEnd 1).terminatedTid ↔
        Terminated (FetchCore.new.createTraceInfo.createTraceInfo.reachEnd 1) t ∧ 0 < t) ∧
      ∀ t < 2, ¬ Terminated (FetchCore.new.createTraceInfo.createTraceInfo.reachEnd 1) t →
        t ∈ (FetchCore.new.createTraceInfo.createTraceInfo.reachEnd 1).visited :=
  watermark_tracks_terminated (.step .create (.step .create .new rfl) rfl)
    (by decide) (by decide)

end FetchCore

end MacSim.Analysis
