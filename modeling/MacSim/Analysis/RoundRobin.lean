import MacSim.Analysis.ThreadWatermark

/-!
# What round robin misses

`fetch_rr` tries as many threads as there are above the watermark.  It reaches all of them if it
starts above the watermark and goes on after each try.  After a failed fetch it tries its first
thread twice, and from an arbiter below the watermark its first try goes to a thread that has
ended; in both cases there is one thread that it does not reach.
-/

set_option autoImplicit false

namespace MacSim.Analysis

open MacSim.Model

namespace FetchCore

variable {c : FetchChecks} {s s' : FetchCore} {t : ℕ}

/-- A thread from which the core can fetch: it was scheduled and has not ended, its fetch is not
blocked, and it passes the checks that are enabled. -/
def Fetchable (c : FetchChecks) (s : FetchCore) (t : ℕ) : Prop :=
  t < s.uniqueScheduledThreadNum ∧ s.passes c t = true

/-- The thread that a walk that loses a try does not reach: the one before the arbiter. -/
def skipped (s : FetchCore) : ℕ :=
  if s.lastTerminatedTid < s.fetchArbiter then s.fetchArbiter - 1
  else s.uniqueScheduledThreadNum - 1

/-- No try is lost: the last fetch did not fail, or there is no other thread, and the arbiter is
not below the watermark. -/
def FullWalk (s : FetchCore) : Prop :=
  s.lastTerminatedTid ≤ s.fetchArbiter ∧
    (s.lastFetchTidFailed = false ∨ s.uniqueScheduledThreadNum = s.lastTerminatedTid + 1)

/-- The walk reaches all threads, or the one that it does not reach is not the only one that can
be fetched from. -/
def Covered (c : FetchChecks) (s : FetchCore) : Prop :=
  FullWalk s ∨ (Fetchable c s (skipped s) → ∃ t, t ≠ skipped s ∧ Fetchable c s t)

/-! ## The counters of the frontend -/

/-- The threads whose fetch has not ended. -/
def fetching (s : FetchCore) : Finset ℕ :=
  (Finset.range s.uniqueScheduledThreadNum).filter fun t => s.fetchEnded t = false

/-- The arbiter is a thread, and the threads whose fetch has not ended are counted. -/
structure FetchBooks (s : FetchCore) : Prop where
  arbiter : s.fetchArbiter < s.uniqueScheduledThreadNum ∨ s.fetchArbiter = 0
  count : s.fetchingThreadNum = (fetching s).card

/-- The books are right for a new core. -/
theorem fetchBooks_new : FetchBooks FetchCore.new := ⟨Or.inr rfl, rfl⟩

/-- A new thread keeps the books right. -/
theorem FetchBooks.create (h : FetchBooks s) : FetchBooks s.createTraceInfo := by
  refine ⟨?_, ?_⟩
  · rcases h.arbiter with hlt | hzero
    · exact Or.inl (Nat.lt_succ_of_lt hlt)
    · exact Or.inr hzero
  · have hset : fetching s.createTraceInfo =
        insert s.uniqueScheduledThreadNum (fetching s) := by
      ext t
      rw [Finset.mem_insert]
      unfold fetching FetchCore.createTraceInfo
      dsimp only
      rw [Finset.mem_filter, Finset.mem_filter, Finset.mem_range, Finset.mem_range]
      by_cases ht : t = s.uniqueScheduledThreadNum
      · subst ht
        rw [Function.update_self]
        simp
      · rw [Function.update_of_ne ht]
        have hlt : t < s.uniqueScheduledThreadNum + 1 ↔ t < s.uniqueScheduledThreadNum := by omega
        rw [hlt]
        exact (or_iff_right ht).symm
    have hnew : s.uniqueScheduledThreadNum ∉ fetching s := by
      simp [fetching]
    rw [hset, Finset.card_insert_of_notMem hnew, ← h.count]
    rfl

/-- A thread whose fetch ends keeps the books right. -/
theorem FetchBooks.endFetch (h : FetchBooks s) (ht : t < s.uniqueScheduledThreadNum)
    (hfetching : s.fetchEnded t = false) : FetchBooks (s.endFetch t) := by
  refine ⟨h.arbiter, ?_⟩
  have hset : fetching (s.endFetch t) = (fetching s).erase t := by
    ext u
    rw [Finset.mem_erase]
    unfold fetching FetchCore.endFetch
    dsimp only
    rw [Finset.mem_filter, Finset.mem_filter]
    by_cases hu : u = t
    · subst hu
      rw [Function.update_self]
      simp
    · rw [Function.update_of_ne hu]
      exact (and_iff_right hu).symm
  have hmem : t ∈ fetching s := Finset.mem_filter.mpr ⟨Finset.mem_range.mpr ht, hfetching⟩
  rw [hset, Finset.card_erase_of_mem hmem, ← h.count]
  rfl

/-- A thread that terminates keeps the books right. -/
theorem FetchBooks.terminate (h : FetchBooks s) (ht : t < s.uniqueScheduledThreadNum)
    (hstep : s.terminate t = some s') : FetchBooks s' := by
  have hreach : FetchBooks (s.reachEnd t) := ⟨h.arbiter, h.count⟩
  unfold FetchCore.terminate at hstep
  dsimp only at hstep
  split at hstep
  · split at hstep
    · cases hstep
      exact hreach
    · next hfetching =>
      cases hstep
      exact hreach.endFetch ht (Bool.eq_false_iff.mpr hfetching)
  · cases hstep

/-! ## The threads that are tried -/

/-- The threads that the next tries are spent on, if none of them succeeds. -/
def candidates : ℕ → FetchCore → List ℕ
  | 0, _ => []
  | tries + 1, s => s.nextCandidate.1 :: candidates tries s.nextCandidate.2

/-- The walk stops at the first thread that passes. -/
theorem tryFetch_fst (c : FetchChecks) (tries : ℕ) (s : FetchCore) :
    (FetchCore.tryFetch c tries s).1 = (candidates tries s).find? (s.passes c) := by
  induction tries generalizing s with
  | zero => rfl
  | succ tries ih =>
      have hpasses : s.nextCandidate.2.passes c = s.passes c := rfl
      unfold FetchCore.tryFetch candidates
      dsimp only
      rw [hpasses, List.find?_cons]
      cases hfound : s.passes c s.nextCandidate.1 with
      | true => rfl
      | false => exact ih s.nextCandidate.2

/-- The walk reaches what the thresholds say: the threads from the arbiter up, and those from the
watermark up once it has come round. -/
theorem mem_candidates_of_clean {tries : ℕ} (hclean : s.lastFetchTidFailed = false)
    (hlow : s.lastTerminatedTid ≤ s.fetchArbiter)
    (hhigh : s.fetchArbiter < s.uniqueScheduledThreadNum)
    (htries : tries ≤ s.uniqueScheduledThreadNum - s.lastTerminatedTid) :
    t ∈ candidates tries s ↔
      (s.fetchArbiter ≤ t ∧ t < s.fetchArbiter + tries ∧ t < s.uniqueScheduledThreadNum) ∨
        (s.lastTerminatedTid ≤ t ∧
          t + (s.uniqueScheduledThreadNum - s.lastTerminatedTid) < s.fetchArbiter + tries) := by
  induction tries generalizing s with
  | zero =>
      refine iff_of_false List.not_mem_nil ?_
      omega
  | succ tries ih =>
      have hfirst : s.nextCandidate.1 = s.fetchArbiter := if_neg (Nat.not_le.mpr hhigh)
      have hnext : s.nextCandidate.2.fetchArbiter =
          if s.fetchArbiter + 1 = s.uniqueScheduledThreadNum then s.lastTerminatedTid
          else s.fetchArbiter + 1 := by
        unfold FetchCore.nextCandidate
        simp only [hclean, Bool.false_eq_true, if_false]
        by_cases hwrap : s.fetchArbiter + 1 = s.uniqueScheduledThreadNum
        · simp only [hwrap, if_true]
          split_ifs <;> omega
        · simp only [hwrap, if_false]
          exact if_neg (by omega)
      unfold candidates
      rw [List.mem_cons, hfirst, ih rfl ?_ ?_ ?_, hnext]
      · change _ ∨ (_ ∧ _ ∧ t < s.uniqueScheduledThreadNum) ∨ (s.lastTerminatedTid ≤ t ∧
          t + (s.uniqueScheduledThreadNum - s.lastTerminatedTid) < _) ↔ _
        split_ifs <;> omega
      · rw [hnext]
        change s.lastTerminatedTid ≤ _
        split_ifs <;> omega
      · rw [hnext]
        change _ < s.uniqueScheduledThreadNum
        split_ifs <;> omega
      · change tries ≤ s.uniqueScheduledThreadNum - s.lastTerminatedTid
        omega

/-- A thread above the watermark is reached, unless a try is lost and it is the one before the
arbiter. -/
theorem mem_candidates (hhigh : s.fetchArbiter < s.uniqueScheduledThreadNum)
    (hlow : s.lastTerminatedTid ≤ t) (ht : t < s.uniqueScheduledThreadNum) :
    t ∈ candidates (s.uniqueScheduledThreadNum - s.lastTerminatedTid) s ↔
      FullWalk s ∨ t ≠ skipped s := by
  obtain ⟨tries, htries⟩ :
      ∃ tries, s.uniqueScheduledThreadNum - s.lastTerminatedTid = tries + 1 :=
    ⟨s.uniqueScheduledThreadNum - s.lastTerminatedTid - 1, by omega⟩
  have hfirst : s.nextCandidate.1 = s.fetchArbiter := if_neg (Nat.not_le.mpr hhigh)
  have hnext : s.nextCandidate.2.fetchArbiter =
      if s.fetchArbiter < s.lastTerminatedTid then s.lastTerminatedTid
      else if s.lastFetchTidFailed then s.fetchArbiter
      else if s.fetchArbiter + 1 = s.uniqueScheduledThreadNum then s.lastTerminatedTid
      else s.fetchArbiter + 1 := by
    unfold FetchCore.nextCandidate
    dsimp only
    by_cases hwrap : s.fetchArbiter + 1 = s.uniqueScheduledThreadNum <;>
      cases s.lastFetchTidFailed <;>
      simp only [hwrap, if_true, if_false, Bool.false_eq_true] <;> split_ifs <;> omega
  rw [htries]
  unfold candidates
  rw [List.mem_cons, hfirst, mem_candidates_of_clean rfl ?_ ?_ ?_, hnext]
  · change _ ∨ (_ ∧ _ ∧ t < s.uniqueScheduledThreadNum) ∨ (s.lastTerminatedTid ≤ t ∧
      t + (s.uniqueScheduledThreadNum - s.lastTerminatedTid) < _) ↔ _
    unfold FullWalk skipped
    cases s.lastFetchTidFailed <;> simp only [if_true, Bool.false_eq_true, Bool.true_eq_false, if_false,
      true_or, false_or, and_true] <;> split_ifs <;> omega
  · rw [hnext]
    change s.lastTerminatedTid ≤ _
    split_ifs <;> omega
  · rw [hnext]
    change _ < s.uniqueScheduledThreadNum
    split_ifs <;> omega
  · change tries ≤ s.uniqueScheduledThreadNum - s.lastTerminatedTid
    omega

/-! ## All runs -/

/-- Each try leaves the arbiter at a thread, as long as some thread has not ended. -/
theorem tryFetch_arbiter (c : FetchChecks) (tries : ℕ)
    (hlast : s.lastTerminatedTid < s.uniqueScheduledThreadNum)
    (hhigh : s.fetchArbiter < s.uniqueScheduledThreadNum) :
    (FetchCore.tryFetch c tries s).2.fetchArbiter < s.uniqueScheduledThreadNum := by
  induction tries generalizing s with
  | zero => exact hhigh
  | succ tries ih =>
      have hnext : s.nextCandidate.2.fetchArbiter < s.uniqueScheduledThreadNum := by
        unfold FetchCore.nextCandidate
        dsimp only
        split_ifs <;> omega
      unfold FetchCore.tryFetch
      dsimp only
      split
      · exact hnext
      · exact ih hlast hnext

/-- A fetch keeps the books right. -/
theorem FetchBooks.fetch (h : FetchBooks s) (c : FetchChecks) : FetchBooks (s.fetchRr c).2 := by
  refine ⟨?_, ?_⟩
  · unfold FetchCore.fetchRr
    split
    · exact h.arbiter
    · rcases Nat.lt_or_ge s.lastTerminatedTid s.uniqueScheduledThreadNum with hlast | hlast
      · have hhigh : s.fetchArbiter < s.uniqueScheduledThreadNum := by
          rcases h.arbiter with hlt | hzero <;> omega
        obtain ⟨_, _, heq⟩ := tryFetch_snd c
          (s.uniqueScheduledThreadNum - s.lastTerminatedTid) s
        have harbiter := tryFetch_arbiter c
          (s.uniqueScheduledThreadNum - s.lastTerminatedTid) hlast hhigh
        rw [heq] at harbiter ⊢
        exact Or.inl harbiter
      · rw [Nat.sub_eq_zero_of_le hlast]
        exact h.arbiter
  · obtain ⟨_, _, heq⟩ := fetchRr_snd c s
    rw [heq]
    exact h.count

/-- Each step keeps the books right. -/
theorem FetchBooks.step (h : FetchBooks s) {a : FetchCore.FetchAct}
    (hstep : s.step a = some s') : FetchBooks s' := by
  cases a with
  | create =>
      cases hstep
      exact h.create
  | endFetch tid =>
      obtain ⟨⟨htid, hfetching⟩, rfl⟩ := step_endFetch hstep
      exact h.endFetch htid hfetching
  | terminate tid =>
      obtain ⟨hlive, hrest⟩ := step_terminate hstep
      exact h.terminate hlive.1 hrest
  | fetch c =>
      cases hstep
      exact h.fetch c
  | stall =>
      cases hstep
      exact ⟨h.arbiter, h.count⟩

/-- The books are right in every reachable state. -/
theorem fetchBooks_of_reachable (h : FetchCore.Reachable s) : FetchBooks s := by
  induction h with
  | new => exact fetchBooks_new
  | step a _ hstep ih => exact ih.step hstep

/-! ## Work conservation -/

/-- Nothing can be fetched only if no thread can be fetched from, and a thread that is chosen can
be. -/
def WorkConserving (c : FetchChecks) (s : FetchCore) : Prop :=
  (∀ t, (s.fetchRr c).1 = some t → Fetchable c s t) ∧
    ((s.fetchRr c).1 = none → ∀ t, ¬ Fetchable c s t)

/-- A thread that passes has not ended. -/
theorem passes_live (h : s.passes c t = true) :
    s.fetchEnded t = false ∧ s.threadReachEnd t = false := by
  unfold FetchCore.passes at h
  rw [Bool.and_assoc, Bool.and_eq_true, Bool.not_eq_true', Bool.or_eq_false_iff,
    Bool.or_eq_false_iff] at h
  exact h.1.1

/-- What is fetchable is above the watermark. -/
theorem Watermark.of_fetchable (h : Watermark s) (ht : Fetchable c s t) :
    s.lastTerminatedTid ≤ t := h.least.2 fun hended => by
  obtain ⟨-, hreach⟩ := hended
  rw [(passes_live ht.2).2] at hreach
  exact Bool.false_ne_true hreach

/-- While a thread can be fetched from, the walk is made, and it starts at a thread. -/
theorem fetchRr_of_fetchable (hbooks : FetchBooks s) (ht : Fetchable c s t) :
    (s.fetchRr c).1 = (candidates (s.uniqueScheduledThreadNum - s.lastTerminatedTid) s).find?
        (s.passes c) ∧ s.fetchArbiter < s.uniqueScheduledThreadNum := by
  have hmem : t ∈ fetching s :=
    Finset.mem_filter.mpr ⟨Finset.mem_range.mpr ht.1, (passes_live ht.2).1⟩
  have hnum : s.fetchingThreadNum ≠ 0 := by
    rw [hbooks.count]
    exact Finset.card_ne_zero_of_mem hmem
  have hlt := ht.1
  refine ⟨?_, ?_⟩
  · unfold FetchCore.fetchRr
    rw [if_neg hnum]
    exact tryFetch_fst c _ s
  · rcases hbooks.arbiter with harbiter | hzero <;> omega

/-- The ids that are tried are those of threads. -/
theorem candidates_lt {tries : ℕ} (hpos : 0 < s.uniqueScheduledThreadNum)
    (ht : t ∈ candidates tries s) : t < s.uniqueScheduledThreadNum := by
  induction tries generalizing s with
  | zero => cases ht
  | succ tries ih =>
      rcases List.mem_cons.mp ht with rfl | ht
      · unfold FetchCore.nextCandidate
        dsimp only
        split
        · exact Nat.mod_lt _ hpos
        · omega
      · exact ih (s := s.nextCandidate.2) hpos ht

/-- A chosen thread passed, whatever the state of the walk. -/
theorem fetchRr_some (h : (s.fetchRr c).1 = some t) : Fetchable c s t := by
  unfold FetchCore.fetchRr at h
  split at h
  · cases h
  · rw [tryFetch_fst] at h
    rcases Nat.eq_zero_or_pos s.uniqueScheduledThreadNum with hzero | hpos
    · rw [hzero, Nat.zero_sub] at h
      cases h
    · exact ⟨candidates_lt hpos (List.mem_of_find?_eq_some h), List.find?_some h⟩

/-- In every reachable state, `fetch_rr` is work-conserving exactly if the walk loses no try, or
the one thread that it does not reach is not the only one that can be fetched from. -/
theorem round_robin_work_conserving_iff (h : FetchCore.Reachable s) (c : FetchChecks) :
    WorkConserving c s ↔ Covered c s := by
  have hbooks := fetchBooks_of_reachable h
  have hmark := watermark_of_reachable h
  constructor
  · rintro ⟨-, hnone⟩
    by_cases hfull : FullWalk s
    · exact Or.inl hfull
    refine Or.inr fun hskipped => ?_
    obtain ⟨hfind, hhigh⟩ := fetchRr_of_fetchable hbooks hskipped
    cases hres : (s.fetchRr c).1 with
    | none => exact absurd hskipped (hnone hres _)
    | some t =>
        have ht := fetchRr_some hres
        rw [hfind] at hres
        have hreached := (mem_candidates hhigh (hmark.of_fetchable ht) ht.1).mp
          (List.mem_of_find?_eq_some hres)
        exact ⟨t, hreached.resolve_left hfull, ht⟩
  · intro hcovered
    refine ⟨fun t ht => fetchRr_some ht, fun hnone t ht => ?_⟩
    obtain ⟨hfind, hhigh⟩ := fetchRr_of_fetchable hbooks ht
    rw [hfind] at hnone
    -- no fetchable thread is reached, so that each of them is the one that is skipped
    have hmissed : ∀ u, Fetchable c s u → ¬ (FullWalk s ∨ u ≠ skipped s) := fun u hu hreached =>
      List.find?_eq_none.mp hnone u
        ((mem_candidates hhigh (hmark.of_fetchable hu) hu.1).mpr hreached) hu.2
    obtain ⟨hnot, hskipped⟩ := not_or.mp (hmissed t ht)
    obtain rfl := not_not.mp hskipped
    obtain ⟨u, hne, hu⟩ := hcovered.resolve_left hnot ht
    exact hmissed u hu (.inr hne)

/-- A GPU core on which all threads can be fetched from but those at a barrier. -/
def barrierChecks (atBarrier : ℕ → Bool) : FetchChecks where
  noFetchOnIcacheMiss := false
  ptxSim := true
  mtNoFetchBr := true
  fetchOnlyLoadReady := false
  fetchReady := fun _ => true
  fetchBlocked := atBarrier
  brReady := fun _ => true
  loadReady := fun _ => true

/-- Two threads.  The first one is fetched, the second one is fetched and comes to a barrier, and
the first one is chosen again while the queue of the frontend has no room. -/
def failedFetch : FetchCore :=
  let s := FetchCore.new.createTraceInfo.createTraceInfo
  let s := (s.fetchRr (barrierChecks fun _ => false)).2
  let s := (s.fetchRr (barrierChecks fun _ => false)).2
  { (s.fetchRr (barrierChecks fun t => t == 1)).2 with lastFetchTidFailed := true }

/-- A core whose last fetch has failed can be reached. -/
theorem failedFetch_reachable : FetchCore.Reachable failedFetch :=
  .step .stall (.step (.fetch (barrierChecks fun t => t == 1))
    (.step (.fetch (barrierChecks fun _ => false)) (.step (.fetch (barrierChecks fun _ => false))
      (.step .create (.step .create .new rfl) rfl) rfl) rfl) rfl) rfl

/-- After the failed fetch one of the threads is not tried, but the other one can be fetched from
when no thread is at a barrier. -/
theorem round_robin_work_conserving_iff_failed :
    ¬ FullWalk failedFetch ∧ WorkConserving (barrierChecks fun _ => false) failedFetch := by
  constructor
  · rintro ⟨-, hfailed⟩
    exact absurd hfailed (by decide)
  · refine (round_robin_work_conserving_iff failedFetch_reachable _).mpr (.inr fun _ => ?_)
    exact ⟨1, by decide, by decide, by decide⟩

/-- The second thread is tried twice, and the first one is not tried. -/
theorem round_robin_idles :
    FetchCore.Reachable failedFetch ∧
      (failedFetch.fetchRr (barrierChecks fun t => t == 1)).1 = none ∧
      Fetchable (barrierChecks fun t => t == 1) failedFetch 0 :=
  ⟨failedFetch_reachable, by decide, by decide, by decide⟩

end FetchCore

end MacSim.Analysis
