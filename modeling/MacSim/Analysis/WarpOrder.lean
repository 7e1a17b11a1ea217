import MacSim.Model.ScheduleSmc
import MacSim.Computation.Ring
import MacSim.Computation.Partial

/-!
# The order in which a GPU core executes

The uops of a thread wait in one line: the occupied slots of the schedule list, from its head
on, and behind them the allocation queue.  A warp scheduler that meets a thread which was not
looked at in this cycle has passed no other uop of the thread, so it executes the first of the
line; the others keep their order.
-/

set_option autoImplicit false

namespace MacSim.Analysis

open MacSim.Model MacSim.Computation

namespace SmcSched

open MacSim.Model.SmcSched

/-- The entries of the schedule list, from its head on. -/
def waiting (k : SmcKnobs) (s : SmcSched) (len : ℕ) : List (ℕ × ℕ) :=
  (window k.schlistSize s.firstSchlist len).filterMap s.schlist

/-- The line of the uops that have not executed. -/
def line (k : SmcKnobs) (s : SmcSched) (len : ℕ) : List (ℕ × ℕ) := waiting k s len ++ s.allocQ

/-- The uop numbers of a thread in a list of entries. -/
def numbers (s : SmcSched) (t : ℕ) (l : List (ℕ × ℕ)) : List ℕ :=
  (l.filter fun x => decide (x.1 = t)).map fun x => (s.uopAt x).num

/-- The uops of a thread that were pushed into its reorder buffer, in this order. -/
def pushedBy (s : SmcSched) (t : ℕ) : List ℕ :=
  (s.pushed.filter fun x => decide (x.1 = t)).map Prod.snd

/-- The uops of a thread that executed, in this order. -/
def executedBy (s : SmcSched) (t : ℕ) : List ℕ :=
  (s.executed.filter fun x => decide (x.thread = t)).map Issue.num

/-- The reorder buffer of a thread has `cnt` uops. -/
structure RobHolds (k : SmcKnobs) (r : ThreadRob) (cnt : ℕ) : Prop where
  count : cnt + r.freeCnt = k.robSize
  first : r.firstEntry % k.robMax = r.firstEntry
  last : r.lastEntry = (r.firstEntry + cnt) % k.robMax

/-- What holds of the list, the queue and the reorder buffers in every state: the list has `len`
slots and the buffer of thread `t` has `cnt t` uops. -/
structure Ordered (k : SmcKnobs) (s : SmcSched) (len : ℕ) (cnt : ℕ → ℕ) : Prop where
  first_lt : s.firstSchlist < k.schlistSize
  len_lt : len < k.schlistSize
  last : s.lastSchlist = (s.firstSchlist + len) % k.schlistSize
  inWindow : ∀ i, s.schlist i ≠ none → i ∈ window k.schlistSize s.firstSchlist len
  intact : s.overwritten = false
  total : s.numInSched = (waiting k s len).length
  perSched : s.numPerSched = s.numInSched
  robs : ∀ t, RobHolds k (s.rob t) (cnt t)
  entries : (line k s len).Nodup
  inRob : ∀ x ∈ line k s len, x.2 ∈ window k.robMax (s.rob x.1).firstEntry (cnt x.1)
  undone : ∀ x ∈ line k s len, (s.uopAt x).doneCycle = 0 ∧ (s.uopAt x).bogus = false
  order : ∀ t, pushedBy s t = executedBy s t ++ numbers s t (line k s len)
  once : s.pushed.Nodup
  numLt : ∀ x ∈ s.pushed, x.2 < s.nextNum
  lineLt : ∀ x ∈ line k s len, x.1 < s.started
  liveLt : ∀ t ∈ s.live, t < s.started

/-- The schedule has room for an entry. -/
theorem schlistSize_pos (k : SmcKnobs) : 0 < k.schlistSize :=
  Nat.mul_pos (by decide) k.numThreads_pos

/-- A buffer that is initialised again holds nothing. -/
theorem robHolds_reinit (k : SmcKnobs) : RobHolds k (ThreadRob.reinit k) 0 where
  count := Nat.zero_add _
  first := Nat.zero_mod _
  last := (Nat.zero_mod _).symm

/-- A new scheduler has nothing to order. -/
theorem ordered_new (k : SmcKnobs) : Ordered k (SmcSched.new k) 0 fun _ => 0 where
  first_lt := schlistSize_pos k
  len_lt := schlistSize_pos k
  last := (Nat.zero_mod _).symm
  inWindow := fun _ h => (h rfl).elim
  intact := rfl
  total := rfl
  perSched := rfl
  robs := fun _ => robHolds_reinit k
  entries := List.nodup_nil
  inRob := fun _ h => (List.not_mem_nil h).elim
  undone := fun _ h => (List.not_mem_nil h).elim
  order := fun _ => rfl
  once := List.nodup_nil
  numLt := fun _ h => (List.not_mem_nil h).elim
  lineLt := fun _ h => (List.not_mem_nil h).elim
  liveLt := fun _ h => (List.not_mem_nil h).elim

/-! ## Numbers of a thread -/

/-- The numbers of two lists are those of the first and those of the second. -/
theorem numbers_append (s : SmcSched) (t : ℕ) (l l' : List (ℕ × ℕ)) :
    numbers s t (l ++ l') = numbers s t l ++ numbers s t l' := by
  simp [numbers]

/-- A uop of the warp is the first of its numbers. -/
theorem numbers_cons_self (s : SmcSched) (x : ℕ × ℕ) (l : List (ℕ × ℕ)) :
    numbers s x.1 (x :: l) = (s.uopAt x).num :: numbers s x.1 l := by
  simp [numbers]

/-- A uop of another warp is not counted. -/
theorem numbers_cons_ne (s : SmcSched) {t : ℕ} {x : ℕ × ℕ} (h : x.1 ≠ t) (l : List (ℕ × ℕ)) :
    numbers s t (x :: l) = numbers s t l := by
  simp [numbers, h]

/-- A list of other warps has no numbers of this one. -/
theorem numbers_eq_nil {s : SmcSched} {t : ℕ} {l : List (ℕ × ℕ)} (h : ∀ x ∈ l, x.1 ≠ t) :
    numbers s t l = [] := by
  unfold numbers
  rw [List.filter_eq_nil_iff.mpr fun x hx => by simpa using h x hx, List.map_nil]

/-- The numbers of a list are those of its uops only. -/
theorem numbers_congr {s s' : SmcSched} {t : ℕ} {l : List (ℕ × ℕ)}
    (h : ∀ x ∈ l, (s'.uopAt x).num = (s.uopAt x).num) : numbers s' t l = numbers s t l :=
  List.map_congr_left fun x hx => h x (List.mem_of_mem_filter hx)

/-- One more issue adds its number to those of its own warp. -/
theorem executedBy_append (s : SmcSched) (t : ℕ) (x : Issue) (l : List Issue)
    (h : s.executed = l ++ [x]) :
    executedBy s t = (l.filter fun x => decide (x.thread = t)).map Issue.num ++
      if x.thread = t then [x.num] else [] := by
  unfold executedBy
  rw [h, List.filter_append, List.map_append]
  by_cases hx : x.thread = t
  · simp [hx]
  · simp [hx]

/-- A uop that waits has not executed. -/
theorem Ordered.not_executed {k : SmcKnobs} {s : SmcSched} {len : ℕ} {cnt : ℕ → ℕ}
    (h : Ordered k s len cnt) {x : ℕ × ℕ} (hx : x ∈ line k s len) {y : Issue}
    (hy : y ∈ s.executed) (ht : y.thread = x.1) : y.num ≠ (s.uopAt x).num := by
  have hnodup : (pushedBy s x.1).Nodup := by
    refine (h.once.filter _).map_on ?_
    intro a ha b hb hab
    have ha' := of_decide_eq_true (List.mem_filter.mp ha).2
    have hb' := of_decide_eq_true (List.mem_filter.mp hb).2
    exact Prod.ext (ha'.trans hb'.symm) hab
  rw [h.order] at hnodup
  have hin : y.num ∈ executedBy s x.1 :=
    List.mem_map_of_mem (List.mem_filter.mpr ⟨hy, by simpa using ht⟩)
  have hwait : (s.uopAt x).num ∈ numbers s x.1 (line k s len) :=
    List.mem_map_of_mem (f := fun x => (s.uopAt x).num) (List.mem_filter.mpr ⟨hx, by simp⟩)
  exact (List.nodup_append.mp hnodup).2.2 _ hin _ hwait

/-! ## Changes of the list -/

/-- The slots of the list before and behind slot `j`. -/
theorem waiting_cut {k : SmcKnobs} {s : SmcSched} {len j : ℕ} {x : ℕ × ℕ}
    (hlen : len ≤ k.schlistSize) (hj : j < len)
    (hslot : s.schlist ((s.firstSchlist + j) % k.schlistSize) = some x) :
    ∃ post, waiting k s len =
        (window k.schlistSize s.firstSchlist j).filterMap s.schlist ++ x :: post ∧
      (window k.schlistSize s.firstSchlist len).filterMap (Function.update s.schlist
          ((s.firstSchlist + j) % k.schlistSize) none) =
        (window k.schlistSize s.firstSchlist j).filterMap s.schlist ++ post := by
  set i := (s.firstSchlist + j) % k.schlistSize with hi
  obtain ⟨n, rfl⟩ := Nat.exists_eq_add_of_lt hj
  have hcut : window k.schlistSize s.firstSchlist (j + n + 1) =
      window k.schlistSize s.firstSchlist j ++
        i :: window k.schlistSize (s.firstSchlist + j + 1) n := by
    rw [Nat.add_assoc, window_append, window_succ, window_mod]
  have hnodup : (window k.schlistSize s.firstSchlist (j + n + 1)).Nodup := nodup_window hlen
  rw [hcut, List.nodup_append] at hnodup
  obtain ⟨-, htail, hapart⟩ := hnodup
  obtain ⟨hpost, -⟩ := List.nodup_cons.mp htail
  have hkeep : ∀ l : List ℕ, i ∉ l →
      l.filterMap (Function.update s.schlist i none) = l.filterMap s.schlist := fun l hl =>
    List.filterMap_congr fun a ha => Function.update_of_ne (fun he : a = i => hl (he ▸ ha)) _ _
  have hpre : i ∉ window k.schlistSize s.firstSchlist j := fun hin =>
    hapart i hin i List.mem_cons_self rfl
  refine ⟨(window k.schlistSize (s.firstSchlist + j + 1) n).filterMap s.schlist, ?_, ?_⟩
  · unfold waiting
    rw [hcut, List.filterMap_append, List.filterMap_cons_some hslot]
  · rw [hcut, List.filterMap_append, List.filterMap_cons_none (Function.update_self _ _ _),
      hkeep _ hpre, hkeep _ hpost]

/-- The line does not change when the head passes a hole. -/
theorem Ordered.passHole {k : SmcKnobs} {s : SmcSched} {len : ℕ} {cnt : ℕ → ℕ}
    (h : Ordered k s (len + 1) cnt) (hhole : s.schlist s.firstSchlist = none) :
    Ordered k { s with firstSchlist := (s.firstSchlist + 1) % k.schlistSize } len cnt := by
  have hmod : s.firstSchlist % k.schlistSize = s.firstSchlist := Nat.mod_eq_of_lt h.first_lt
  have hwait : waiting k { s with firstSchlist := (s.firstSchlist + 1) % k.schlistSize } len =
      waiting k s (len + 1) := by
    unfold waiting
    rw [window_succ, hmod, List.filterMap_cons_none hhole]
  have hline : line k { s with firstSchlist := (s.firstSchlist + 1) % k.schlistSize } len =
      line k s (len + 1) := congrArg (· ++ s.allocQ) hwait
  refine
    { h with
      first_lt := Nat.mod_lt _ (schlistSize_pos k)
      len_lt := (Nat.lt_succ_self len).trans h.len_lt
      last := ?_
      inWindow := ?_
      total := hwait ▸ h.total
      entries := hline ▸ h.entries
      inRob := ?_
      undone := ?_
      order := ?_
      lineLt := ?_ }
  · rw [Nat.mod_add_mod, h.last]
    congr 1
    omega
  · intro i hi
    have hmem := h.inWindow i hi
    rw [window_succ, hmod] at hmem
    rcases List.mem_cons.mp hmem with rfl | hmem
    · exact absurd hhole hi
    · exact hmem
  · rw [hline]
    exact h.inRob
  · rw [hline]
    exact h.undone
  · rw [hline]
    exact h.order
  · rw [hline]
    exact h.lineLt

/-- The first uop of its thread leaves the list. -/
theorem Ordered.clearSlot {k : SmcKnobs} {s : SmcSched} {len j : ℕ} {cnt : ℕ → ℕ}
    {x : ℕ × ℕ} (h : Ordered k s len cnt) (sched : ℕ) (hj : j < len)
    (hslot : s.schlist ((s.firstSchlist + j) % k.schlistSize) = some x)
    (hpassed : ∀ y ∈ (window k.schlistSize s.firstSchlist j).filterMap s.schlist, y.1 ≠ x.1) :
    Ordered k (s.clearSlot sched ((s.firstSchlist + j) % k.schlistSize) x) len cnt ∧
      x ∉ line k (s.clearSlot sched ((s.firstSchlist + j) % k.schlistSize) x) len := by
  set i := (s.firstSchlist + j) % k.schlistSize with hi
  set s' := s.clearSlot sched i x with hs'
  obtain ⟨post, hwait, hclear⟩ := waiting_cut h.len_lt.le hj hslot
  set pre := (window k.schlistSize s.firstSchlist j).filterMap s.schlist
  have hwait' : waiting k s' len = pre ++ post := hclear
  have hline : line k s len = pre ++ x :: (post ++ s.allocQ) := by
    unfold line
    rw [hwait, List.append_assoc, List.cons_append]
  have hline' : line k s' len = pre ++ (post ++ s.allocQ) := by
    unfold line
    rw [hwait', List.append_assoc]
    rfl
  have hsub : ∀ y ∈ line k s' len, y ∈ line k s len := by
    intro y hy
    rw [hline', List.mem_append] at hy
    rw [hline, List.mem_append, List.mem_cons]
    exact hy.imp_right .inr
  have hnodup := h.entries
  rw [hline] at hnodup
  obtain ⟨hout, hrest⟩ := List.nodup_cons.mp (List.perm_middle.nodup_iff.mp hnodup)
  have htotal : s.numInSched = (pre ++ post).length + 1 := by
    rw [h.total, hwait, List.length_append, List.length_append, List.length_cons, Nat.add_assoc]
  refine ⟨?_, hline' ▸ hout⟩
  refine
    { h with
      inWindow := ?_
      total := ?_
      perSched := congrArg (· - 1) h.perSched
      entries := hline' ▸ hrest
      inRob := fun y hy => h.inRob y (hsub y hy)
      undone := fun y hy => h.undone y (hsub y hy)
      order := ?_
      lineLt := fun y hy => h.lineLt y (hsub y hy) }
  · intro a ha
    refine h.inWindow a fun hnone => ha ?_
    show Function.update s.schlist i none a = none
    by_cases hai : a = i
    · rw [hai, Function.update_self]
    · rw [Function.update_of_ne hai, hnone]
  · rw [hwait']
    show s.numInSched - 1 = _
    omega
  · intro t
    have hold := h.order t
    rw [hline, numbers_append] at hold
    rw [executedBy_append s' t ⟨x.1, (s.uopAt x).num, sched, s.round⟩ s.executed rfl, hline',
      numbers_append]
    by_cases ht : x.1 = t
    · -- nothing of the thread stands before its uop
      subst ht
      rw [numbers_eq_nil hpassed, numbers_cons_self] at hold
      show pushedBy s x.1 = _
      rw [hold, if_pos rfl]
      show _ = executedBy s x.1 ++ [(s.uopAt x).num] ++
        (numbers s x.1 pre ++ numbers s x.1 (post ++ s.allocQ))
      rw [numbers_eq_nil hpassed]
      simp
    · rw [numbers_cons_ne s ht] at hold
      show pushedBy s t = _
      rw [hold, if_neg ht, List.append_nil]
      rfl

/-- The reorder buffer of a thread changes, but not the uops that wait. -/
theorem Ordered.setRob {k : SmcKnobs} {s : SmcSched} {len t c : ℕ} {cnt : ℕ → ℕ} {r : ThreadRob}
    (h : Ordered k s len cnt) (hr : RobHolds k r c)
    (hin : ∀ x ∈ line k s len, x.1 = t → x.2 ∈ window k.robMax r.firstEntry c)
    (huop : ∀ x ∈ line k s len, x.1 = t → r.uops x.2 = s.uopAt x) :
    Ordered k (s.setRob t r) len (Function.update cnt t c) := by
  have hsame : ∀ x ∈ line k s len, (s.setRob t r).uopAt x = s.uopAt x := by
    intro x hx
    show (Function.update s.rob t r x.1).uops x.2 = _
    by_cases ht : x.1 = t
    · rw [ht, Function.update_self]
      exact huop x hx ht
    · rw [Function.update_of_ne ht]
      rfl
  refine
    { h with
      robs := ?_
      inRob := ?_
      undone := fun x hx => hsame x hx ▸ h.undone x hx
      order := ?_ }
  · intro a
    show RobHolds k (Function.update s.rob t r a) (Function.update cnt t c a)
    by_cases ha : a = t
    · rw [ha, Function.update_self, Function.update_self]
      exact hr
    · rw [Function.update_of_ne ha, Function.update_of_ne ha]
      exact h.robs a
  · intro x hx
    show x.2 ∈ window k.robMax (Function.update s.rob t r x.1).firstEntry
      (Function.update cnt t c x.1)
    by_cases ht : x.1 = t
    · rw [ht, Function.update_self, Function.update_self]
      exact hin x hx ht
    · rw [Function.update_of_ne ht, Function.update_of_ne ht]
      exact h.inRob x hx
  · intro a
    refine (h.order a).trans (congrArg _ ?_)
    exact (numbers_congr fun x hx => congrArg SmcUop.num (hsame x hx)).symm

/-- The done cycle of a uop that does not wait is written. -/
theorem Ordered.setDone {k : SmcKnobs} {s : SmcSched} {len : ℕ} {cnt : ℕ → ℕ} {x : ℕ × ℕ}
    (h : Ordered k s len cnt) (hx : x ∉ line k s len) (cycle : ℕ) :
    Ordered k (s.setRob x.1 ((s.rob x.1).setDone x.2 cycle)) len cnt := by
  have hold := h.robs x.1
  have hset := h.setRob (t := x.1) (r := (s.rob x.1).setDone x.2 cycle) (c := cnt x.1)
    ⟨hold.count, hold.first, hold.last⟩ (fun y hy ht => by
      rw [← ht]
      exact h.inRob y hy) fun y hy ht => by
      have hne : y.2 ≠ x.2 := fun he => hx (Prod.ext ht he ▸ hy)
      show Function.update (s.rob x.1).uops x.2 _ y.2 = (s.rob y.1).uops y.2
      rw [Function.update_of_ne hne, ht]
  rwa [Function.update_eq_self] at hset

/-- Occupying a port keeps the warps in order. -/
theorem Ordered.occupy {k : SmcKnobs} {s : SmcSched} {len : ℕ} {cnt : ℕ → ℕ}
    (h : Ordered k s len cnt) (sched : ℕ) (uopType : SmcUopType) :
    Ordered k (s.occupy k sched uopType) len cnt := by
  unfold SmcSched.occupy
  split
  · exact { h with }
  · exact { h with }

/-! ## A scheduling cycle -/

/-- What a scheduling cycle keeps of the executed uops, while the warp schedulers `scanned` have
had their turn: two that executed in one cycle differ in thread and in warp scheduler. -/
structure Rounds (s : SmcSched) (scanned : List ℕ) : Prop where
  past : ∀ x ∈ s.executed, x.round ≤ s.round
  now : ∀ x ∈ s.executed, x.round = s.round → x.thread ∈ s.processedThreads ∧ x.sched ∈ scanned
  apart : s.executed.Pairwise fun a b =>
    a.round = b.round → a.thread ≠ b.thread ∧ a.sched ≠ b.sched

/-- What holds of a round holds when more has been scanned. -/
theorem Rounds.mono {s : SmcSched} {scanned scanned' : List ℕ} (h : Rounds s scanned)
    (hsub : scanned ⊆ scanned') : Rounds s scanned' where
  past := h.past
  now := fun x hx hr => (h.now x hx hr).imp_right fun hin => hsub hin
  apart := h.apart

/-- One more uop executes, of a thread and by a warp scheduler that are new to the cycle. -/
theorem Rounds.concat {s s' : SmcSched} {scanned : List ℕ} {x : Issue} (h : Rounds s scanned)
    (hround : s'.round = s.round) (hexec : s'.executed = s.executed ++ [x])
    (hx : x.round = s.round) (hthread : x.thread ∉ s.processedThreads)
    (hsched : x.sched ∉ scanned)
    (hproc : s'.processedThreads = x.thread :: s.processedThreads) :
    Rounds s' (x.sched :: scanned) where
  past := by
    rw [hexec, hround]
    intro y hy
    rcases List.mem_append.mp hy with hy | hy
    · exact h.past y hy
    · obtain rfl := List.mem_singleton.mp hy
      exact hx.le
  now := by
    rw [hexec, hround, hproc]
    intro y hy hr
    rcases List.mem_append.mp hy with hy | hy
    · obtain ⟨hin, hs⟩ := h.now y hy hr
      exact ⟨List.mem_cons_of_mem _ hin, List.mem_cons_of_mem _ hs⟩
    · obtain rfl := List.mem_singleton.mp hy
      exact ⟨List.mem_cons_self, List.mem_cons_self⟩
  apart := by
    rw [hexec, List.pairwise_append]
    refine ⟨h.apart, List.pairwise_singleton _ _, ?_⟩
    intro a ha b hb hr
    obtain rfl := List.mem_singleton.mp hb
    obtain ⟨hin, hs⟩ := h.now a ha (hr.trans hx)
    exact ⟨fun he => hthread (he ▸ hin), fun he => hsched (he ▸ hs)⟩

/-- The state of a scheduling cycle between two steps of its scans. -/
def InCycle (k : SmcKnobs) (cnt : ℕ → ℕ) (scanned : List ℕ) (s : SmcSched) : Prop :=
  (∃ len, Ordered k s len cnt) ∧ Rounds s scanned

/-- Accepting a uop and clearing its slot may change places. -/
theorem accept_clearSlot (s : SmcSched) (sched i : ℕ) (x : ℕ × ℕ) (latency : Option ℕ) :
    (s.accept x latency).clearSlot sched i x = (s.clearSlot sched i x).accept x latency := by
  cases latency with
  | none => rfl
  | some l => simp [SmcSched.accept, SmcSched.clearSlot, SmcSched.setRob, SmcSched.uopAt,
      ThreadRob.setDone]

/-- The first uop of its thread executes, of a thread that the cycle has not looked at. -/
theorem Ordered.issue {k : SmcKnobs} {s : SmcSched} {len j sched : ℕ} {cnt : ℕ → ℕ}
    {x : ℕ × ℕ} {scanned : List ℕ} (h : Ordered k s len cnt) (hr : Rounds s scanned) (hj : j < len)
    (hslot : s.schlist ((s.firstSchlist + j) % k.schlistSize) = some x)
    (hpassed : ∀ y ∈ (window k.schlistSize s.firstSchlist j).filterMap s.schlist, y.1 ≠ x.1)
    (hthread : x.1 ∉ s.processedThreads) (hsched : sched ∉ scanned) (latency : Option ℕ) :
    InCycle k cnt (sched :: scanned)
      ({ s with processedThreads := x.1 :: s.processedThreads }.issue k sched
        ((s.firstSchlist + j) % k.schlistSize) x latency) := by
  set i := (s.firstSchlist + j) % k.schlistSize with hi
  set s₀ : SmcSched := { s with processedThreads := x.1 :: s.processedThreads } with hs₀
  have h₀ : Ordered k s₀ len cnt := { h with }
  obtain ⟨h₁, hout⟩ := h₀.clearSlot sched hj hslot hpassed
  have h₂ : Ordered k ((s₀.accept x latency).clearSlot sched i x) len cnt := by
    rw [accept_clearSlot]
    cases latency with
    | none => exact h₁
    | some l => exact h₁.setDone hout _
  have hhole : ((s₀.accept x latency).clearSlot sched i x).schlist i = none :=
    Function.update_self _ _ _
  have hfirst : ((s₀.accept x latency).clearSlot sched i x).firstSchlist = s.firstSchlist := by
    cases latency with
    | none => rfl
    | some l => rfl
  have hfields : ((s₀.accept x latency).clearSlot sched i x).round = s.round ∧
      ((s₀.accept x latency).clearSlot sched i x).processedThreads = x.1 :: s.processedThreads ∧
      ((s₀.accept x latency).clearSlot sched i x).executed =
        s.executed ++ [⟨x.1, (s₀.uopAt x).num, sched, s.round⟩] := by
    rw [accept_clearSlot]
    cases latency with
    | none => exact ⟨rfl, rfl, rfl⟩
    | some l => exact ⟨rfl, rfl, rfl⟩
  have h₃ : ∃ len', Ordered k (((s₀.accept x latency).clearSlot sched i x).passHole k i) len'
      cnt := by
    unfold SmcSched.passHole
    split
    · next hhead =>
        obtain ⟨n, rfl⟩ := Nat.exists_eq_add_of_lt (Nat.zero_lt_of_lt hj)
        rw [Nat.zero_add] at h₂
        exact ⟨n, h₂.passHole (hhead ▸ hhole)⟩
    · exact ⟨len, h₂⟩
  obtain ⟨len', h₃⟩ := h₃
  refine ⟨⟨len', h₃.occupy _ _⟩, ?_⟩
  have hkeep : ∀ (a : SmcSched) (u : SmcUopType),
      ((a.passHole k i).occupy k sched u).round = a.round ∧
      ((a.passHole k i).occupy k sched u).processedThreads = a.processedThreads ∧
      ((a.passHole k i).occupy k sched u).executed = a.executed := by
    intro a u
    unfold SmcSched.passHole SmcSched.occupy
    split <;> split <;> exact ⟨rfl, rfl, rfl⟩
  obtain ⟨hround, hproc, hexec⟩ := hkeep ((s₀.accept x latency).clearSlot sched i x)
    (s₀.uopAt x).uopType
  exact hr.concat (x := ⟨x.1, (s₀.uopAt x).num, sched, s.round⟩) (hround.trans hfields.1)
    (hexec.trans hfields.2.2) rfl hthread hsched (hproc.trans hfields.2.1)

/-- The scan of a warp scheduler from the slot `j` behind the head: every uop before it is of
another warp scheduler or of a thread that was looked at. -/
theorem Ordered.scan {k : SmcKnobs} (exec : ℕ → Option (Option ℕ)) {sched : ℕ} (fuel : ℕ)
    {s : SmcSched} {len j : ℕ} {cnt : ℕ → ℕ} {scanned : List ℕ} (h : Ordered k s len cnt)
    (hr : Rounds s scanned) (hsched : sched ∉ scanned) (hj : j ≤ len)
    (hpassed : ∀ y ∈ (window k.schlistSize s.firstSchlist j).filterMap s.schlist,
      y.1 % k.numWarpScheduler ≠ sched ∨ y.1 ∈ s.processedThreads) :
    Ensures (s.scan k exec sched fuel ((s.firstSchlist + j) % k.schlistSize))
      (InCycle k cnt (sched :: scanned)) := by
  have hend : InCycle k cnt (sched :: scanned) s :=
    ⟨⟨len, h⟩, hr.mono (List.subset_cons_self _ _)⟩
  induction fuel generalizing s len j with
  | zero => exact .of_some hend
  | succ fuel ih =>
      unfold SmcSched.scan
      split
      · exact .of_some hend
      · next hlast =>
        split
        · exact .of_some hend
        · have hlt : j < len := by
            refine lt_of_le_of_ne hj fun he => hlast ?_
            rw [he, h.last]
          have hnext : ((s.firstSchlist + j) % k.schlistSize + 1) % k.schlistSize =
              (s.firstSchlist + (j + 1)) % k.schlistSize := by
            rw [Nat.mod_add_mod, Nat.add_assoc]
          dsimp only
          rw [hnext]
          split
          · next hslot =>
            unfold SmcSched.passHole
            split
            · next hhead =>
              -- the head passes the hole that it stands on
              have hj₀ : j = 0 := by
                have hmod : (s.firstSchlist + j) % k.schlistSize =
                    (s.firstSchlist + 0) % k.schlistSize := by
                  rw [Nat.add_zero, Nat.mod_eq_of_lt h.first_lt]
                  exact hhead
                exact add_mod_inj (hlt.trans h.len_lt) (schlistSize_pos k) hmod
              subst hj₀
              obtain ⟨n, rfl⟩ := Nat.exists_eq_add_of_lt hlt
              rw [Nat.zero_add] at h
              have h' := h.passHole (hhead ▸ hslot)
              have hrest := ih (j := 0) h' { hr with } (Nat.zero_le _)
                (fun y hy => (List.not_mem_nil hy).elim)
                ⟨⟨n, h'⟩, (Rounds.mono { hr with } (List.subset_cons_self _ _))⟩
              simpa using hrest
            · refine ih h hr hlt ?_ hend
              intro y hy
              rw [window_concat, List.filterMap_append, List.filterMap_cons_none hslot,
                List.filterMap_nil, List.append_nil] at hy
              exact hpassed y hy
          · next x hslot =>
            -- what the scan has passed when it goes on behind this slot
            have hgo : ∀ p : List ℕ, s.processedThreads ⊆ p →
                (x.1 % k.numWarpScheduler ≠ sched ∨ x.1 ∈ p) →
                ∀ y ∈ (window k.schlistSize s.firstSchlist (j + 1)).filterMap s.schlist,
                  y.1 % k.numWarpScheduler ≠ sched ∨ y.1 ∈ p := by
              intro p hsub hx y hy
              rw [window_concat, List.filterMap_append, List.filterMap_cons_some hslot,
                List.filterMap_nil, List.mem_append, List.mem_singleton] at hy
              rcases hy with hy | rfl
              · exact (hpassed y hy).imp_right fun hin => hsub hin
              · exact hx
            split
            · next hskip => exact ih h hr hlt (hgo _ (fun _ hin => hin) hskip) hend
            · next hskip =>
              rw [not_or, not_not] at hskip
              obtain ⟨hmine, hnew⟩ := hskip
              split
              · exact .of_none
              · have h' : Ordered k { s with
                    processedThreads := x.1 :: s.processedThreads } len cnt := { h with }
                have hr' : Rounds { s with
                    processedThreads := x.1 :: s.processedThreads } scanned :=
                  { hr with now := fun y hy hy' => ⟨List.mem_cons_of_mem _ (hr.now y hy hy').1,
                      (hr.now y hy hy').2⟩ }
                have hend' : InCycle k cnt (sched :: scanned) { s with
                    processedThreads := x.1 :: s.processedThreads } :=
                  ⟨⟨len, h'⟩, hr'.mono (List.subset_cons_self _ _)⟩
                have hpassed' := hgo (x.1 :: s.processedThreads) (List.subset_cons_self _ _)
                  (.inr List.mem_cons_self)
                split
                · exact ih h' hr' hlt hpassed' hend'
                · split
                  · exact ih h' hr' hlt hpassed' hend'
                  · next latency _ =>
                    refine .of_some (h.issue hr hlt hslot ?_ hnew hsched latency)
                    rintro y hy he
                    rcases hpassed y hy with hother | hin
                    · exact hother (he ▸ hmine)
                    · exact hnew (he ▸ hin)

/-- The warp schedulers of a cycle are different. -/
theorem schedOrder_nodup (k : SmcKnobs) (s : SmcSched) : (s.schedOrder k).Nodup := by
  refine List.Nodup.map_on ?_ List.nodup_range
  intro a ha b hb hab
  exact add_mod_inj (List.mem_range.mp ha) (List.mem_range.mp hb) hab

/-- The turns of warp schedulers that had none in this cycle. -/
theorem InCycle.schedule {k : SmcKnobs} {cnt : ℕ → ℕ} (exec : ℕ → ℕ → Option (Option ℕ))
    (l scanned : List ℕ) {s : SmcSched} (h : InCycle k cnt scanned s) (hl : l.Nodup)
    (hnew : ∀ a ∈ l, a ∉ scanned) :
    Ensures (l.foldlM (SmcSched.schedule k exec) s) fun s' =>
      ∃ scanned', InCycle k cnt scanned' s' := by
  induction l generalizing scanned s with
  | nil => exact .of_some ⟨scanned, h⟩
  | cons a l ih =>
      rw [List.foldlM_cons]
      obtain ⟨hal, hl⟩ := List.nodup_cons.mp hl
      have hturn : Ensures (SmcSched.schedule k exec s a) (InCycle k cnt (a :: scanned)) := by
        obtain ⟨⟨len, hord⟩, hr⟩ := h
        unfold SmcSched.schedule
        split
        · exact .of_some ⟨⟨len, hord⟩, hr.mono (List.subset_cons_self _ _)⟩
        · have hscan := hord.scan (exec a) k.schlistSize hr (hnew a List.mem_cons_self)
            (Nat.zero_le _) fun y hy => (List.not_mem_nil hy).elim
          rwa [Nat.add_zero, Nat.mod_eq_of_lt hord.first_lt] at hscan
      refine hturn.bind fun s' hs' => ih _ hs' hl fun b hb hin => ?_
      rcases List.mem_cons.mp hin with rfl | hin
      · exact hal hb
      · exact hnew b (List.mem_cons_of_mem _ hb) hin

/-! ## Insertion -/

/-- The entry at the head of the queue goes to the end of the list. -/
theorem Ordered.insert {k : SmcKnobs} {s : SmcSched} {len : ℕ} {cnt : ℕ → ℕ} {x : ℕ × ℕ}
    {rest : List (ℕ × ℕ)} (h : Ordered k s len cnt) (hq : s.allocQ = x :: rest)
    (hroom : len + 1 < k.schlistSize) :
    Ordered k { s with
      allocQ := rest
      overwritten := s.overwritten || (s.schlist s.lastSchlist).isSome
      schlist := Function.update s.schlist s.lastSchlist (some x)
      lastSchlist := (s.lastSchlist + 1) % k.schlistSize
      numInSched := s.numInSched + 1
      numPerSched := s.numPerSched + 1 } (len + 1) cnt := by
  set s' : SmcSched := { s with
    allocQ := rest
    overwritten := s.overwritten || (s.schlist s.lastSchlist).isSome
    schlist := Function.update s.schlist s.lastSchlist (some x)
    lastSchlist := (s.lastSchlist + 1) % k.schlistSize
    numInSched := s.numInSched + 1
    numPerSched := s.numPerSched + 1 } with hs'
  have hend : s.lastSchlist ∉ window k.schlistSize s.firstSchlist len :=
    h.last ▸ end_not_mem_window h.len_lt
  have hfree : s.schlist s.lastSchlist = none := by
    by_contra hocc
    exact hend (h.inWindow _ hocc)
  have hwait : waiting k s' (len + 1) = waiting k s len ++ [x] := by
    have hold : (window k.schlistSize s.firstSchlist len).filterMap
        (Function.update s.schlist s.lastSchlist (some x)) = waiting k s len := by
      refine List.filterMap_congr fun i hi => Function.update_of_ne ?_ _ _
      rintro rfl
      exact hend hi
    show (window k.schlistSize s.firstSchlist (len + 1)).filterMap
      (Function.update s.schlist s.lastSchlist (some x)) = _
    rw [window_concat, List.filterMap_append, hold, ← h.last]
    simp
  have hline : line k s' (len + 1) = line k s len := by
    unfold line
    rw [hwait, hq, List.append_assoc]
    rfl
  refine
    { h with
      len_lt := hroom
      last := ?_
      inWindow := ?_
      intact := ?_
      total := ?_
      perSched := congrArg (· + 1) h.perSched
      entries := hline ▸ h.entries
      inRob := hline ▸ h.inRob
      undone := hline ▸ h.undone
      order := fun t => hline ▸ h.order t
      lineLt := hline ▸ h.lineLt }
  · show (s.lastSchlist + 1) % k.schlistSize = _
    rw [h.last, Nat.mod_add_mod]
    rfl
  · intro i hi
    show i ∈ window k.schlistSize s.firstSchlist (len + 1)
    rw [window_concat, ← h.last]
    by_cases hil : i = s.lastSchlist
    · simp [hil]
    · refine List.mem_append_left _ (h.inWindow i ?_)
      have hi' : Function.update s.schlist s.lastSchlist (some x) i ≠ none := hi
      rwa [Function.update_of_ne hil] at hi'
  · show (s.overwritten || (s.schlist s.lastSchlist).isSome) = false
    rw [h.intact, hfree]
    rfl
  · rw [hwait, List.length_append]
    exact congrArg (· + 1) h.total

/-- Between two cycles: the accounts, and the rounds of what executed. -/
def Kept (k : SmcKnobs) (s : SmcSched) : Prop :=
  (∃ len cnt, Ordered k s len cnt) ∧ (∀ x ∈ s.executed, x.round ≤ s.round) ∧
    s.executed.Pairwise fun a b => a.round = b.round → a.thread ≠ b.thread ∧ a.sched ≠ b.sched

/-- Advancing the allocated uops keeps the order. -/
theorem Kept.advanceLoop {k : SmcKnobs} (n : ℕ) (count : ℕ) {s : SmcSched} (h : Kept k s) :
    Ensures (s.advanceLoop k n count) (Kept k) := by
  induction n generalizing count s with
  | zero => exact .of_some h
  | succ n ih =>
      unfold SmcSched.advanceLoop
      split
      · exact .of_some h
      · next x rest hq =>
          split
          · exact .of_some h
          · next hfull =>
              split
              · exact .of_none
              · split
                · exact .of_some h
                · obtain ⟨⟨len, cnt, hord⟩, hrounds⟩ := h
                  have hlen : len + 1 < k.schlistSize := by
                    refine lt_of_le_of_ne hord.len_lt fun he => hfull ?_
                    rw [hord.last]
                    exact (full_iff hord.first_lt hord.len_lt).mpr he
                  have hin : x ∈ line k s len := by
                    unfold line
                    rw [hq]
                    exact List.mem_append_right _ List.mem_cons_self
                  obtain ⟨hdone, hbogus⟩ := hord.undone x hin
                  dsimp only
                  split
                  · next hflushed =>
                      -- no uop in the queue is done
                      exact absurd hflushed (by
                        show ¬ ((s.uopAt x).bogus || (s.uopAt x).doneCycle != 0) = true
                        simp [hdone, hbogus])
                  · exact ih _ ⟨⟨len + 1, cnt, hord.insert hq hlen⟩, hrounds⟩

/-- A cycle keeps the order. -/
theorem Kept.runACycle {k : SmcKnobs} {s : SmcSched} (h : Kept k s)
    (exec : ℕ → ℕ → Option (Option ℕ)) (ready : ℕ) :
    Ensures (s.runACycle k exec ready) (Kept k) := by
  obtain ⟨⟨len, cnt, hord⟩, hpast, hapart⟩ := h
  unfold SmcSched.runACycle
  dsimp only
  split
  · exact .of_some ⟨⟨len, cnt, { hord with }⟩, hpast, hapart⟩
  · refine Ensures.bind (P := fun s' => ∃ scanned, InCycle k cnt scanned s') ?_ ?_
    · refine InCycle.schedule exec _ [] ⟨⟨len, { hord with }⟩, ?_, ?_, hapart⟩
        (schedOrder_nodup k _) fun _ _ hin => (List.not_mem_nil hin)
      · intro x hx
        exact (hpast x hx).trans (Nat.le_succ _)
      · intro x hx hr
        have hle := hpast x hx
        have hr' : x.round = s.round + 1 := hr
        omega
    · rintro s' ⟨scanned, ⟨len', hord'⟩, hr⟩
      exact Kept.advanceLoop _ _ ⟨⟨len', cnt, { hord' with }⟩, hr.past, hr.apart⟩

/-! ## Threads and reorder buffers -/

/-- A new warp keeps the order. -/
theorem Ordered.startThread {k : SmcKnobs} {s : SmcSched} {len : ℕ} {cnt : ℕ → ℕ}
    (h : Ordered k s len cnt) :
    Ordered k { s.setRob s.started (ThreadRob.reinit k) with
      live := s.live ++ [s.started]
      started := s.started + 1 } len (Function.update cnt s.started 0) := by
  have hne : ∀ x ∈ line k s len, x.1 ≠ s.started := fun x hx => (h.lineLt x hx).ne
  have hset := h.setRob (t := s.started) (robHolds_reinit k)
    (fun x hx ht => absurd ht (hne x hx)) (fun x hx ht => absurd ht (hne x hx))
  refine
    { hset with
      lineLt := fun x hx => (h.lineLt x hx).trans (Nat.lt_succ_self _)
      liveLt := ?_ }
  intro t ht
  rcases List.mem_append.mp ht with ht | ht
  · exact (h.liveLt t ht).trans (Nat.lt_succ_self _)
  · obtain rfl := List.mem_singleton.mp ht
    exact Nat.lt_succ_self _

/-- An allocated uop keeps the order. -/
theorem Ordered.allocate {k : SmcKnobs} {s : SmcSched} {len t : ℕ} {cnt : ℕ → ℕ}
    (h : Ordered k s len cnt) (hlive : t ∈ s.live) (hfree : ¬ (s.rob t).freeCnt < 1)
    (uopType : SmcUopType) :
    Ordered k { s.setRob t ((s.rob t).push k ⟨s.nextNum, uopType, false, 0⟩) with
      allocQ := s.allocQ ++ [(t, (s.rob t).lastEntry)]
      nextNum := s.nextNum + 1
      pushed := s.pushed ++ [(t, s.nextNum)] } len (Function.update cnt t (cnt t + 1)) := by
  have hold := h.robs t
  have hcnt : cnt t < k.robMax := by
    have := hold.count
    unfold SmcKnobs.robMax
    omega
  have hout : (s.rob t).lastEntry ∉ window k.robMax (s.rob t).firstEntry (cnt t) :=
    hold.last ▸ end_not_mem_window hcnt
  have hholds : RobHolds k ((s.rob t).push k ⟨s.nextNum, uopType, false, 0⟩) (cnt t + 1) := by
    refine ⟨?_, hold.first, ?_⟩
    · have := hold.count
      show cnt t + 1 + ((s.rob t).freeCnt - 1) = _
      omega
    · show ((s.rob t).lastEntry + 1) % k.robMax = _
      rw [hold.last, Nat.mod_add_mod]
      rfl
  have hwin : window k.robMax (s.rob t).firstEntry (cnt t + 1) =
      window k.robMax (s.rob t).firstEntry (cnt t) ++ [(s.rob t).lastEntry] := by
    rw [window_concat, ← hold.last]
  have hold_in : ∀ x ∈ line k s len, x.1 = t →
      x.2 ∈ window k.robMax (s.rob t).firstEntry (cnt t) := by
    intro x hx ht
    rw [← ht]
    exact h.inRob x hx
  have hset := h.setRob hholds (fun x hx ht => by
    show x.2 ∈ window k.robMax (s.rob t).firstEntry (cnt t + 1)
    rw [hwin]
    exact List.mem_append_left _ (hold_in x hx ht)) fun x hx ht => by
      have hne : x.2 ≠ (s.rob t).lastEntry := fun he => hout (he ▸ hold_in x hx ht)
      show Function.update (s.rob t).uops (s.rob t).lastEntry _ x.2 = (s.rob x.1).uops x.2
      rw [Function.update_of_ne hne, ht]
  set s₁ := s.setRob t ((s.rob t).push k ⟨s.nextNum, uopType, false, 0⟩) with hs₁
  set s' : SmcSched := { s₁ with
    allocQ := s.allocQ ++ [(t, (s.rob t).lastEntry)]
    nextNum := s.nextNum + 1
    pushed := s.pushed ++ [(t, s.nextNum)] } with hs'
  have hrob : s₁.rob t = (s.rob t).push k ⟨s.nextNum, uopType, false, 0⟩ :=
    Function.update_self _ _ _
  have hnew : s'.uopAt (t, (s.rob t).lastEntry) = ⟨s.nextNum, uopType, false, 0⟩ := by
    show (s₁.rob t).uops (s.rob t).lastEntry = _
    rw [hrob]
    exact Function.update_self _ _ _
  have hline : line k s' len = line k s₁ len ++ [(t, (s.rob t).lastEntry)] :=
    (List.append_assoc _ _ _).symm
  have hfresh : (t, (s.rob t).lastEntry) ∉ line k s₁ len := fun hin => hout (h.inRob _ hin)
  refine
    { hset with
      entries := ?_
      inRob := ?_
      undone := ?_
      order := ?_
      once := ?_
      numLt := ?_
      lineLt := ?_ }
  · rw [hline]
    exact (List.perm_append_singleton _ _).nodup_iff.mpr
      (List.nodup_cons.mpr ⟨hfresh, hset.entries⟩)
  · rw [hline]
    intro x hx
    rcases List.mem_append.mp hx with hx | hx
    · exact hset.inRob x hx
    · obtain rfl := List.mem_singleton.mp hx
      show _ ∈ window k.robMax (s₁.rob t).firstEntry (Function.update cnt t (cnt t + 1) t)
      rw [hrob, Function.update_self]
      show _ ∈ window k.robMax (s.rob t).firstEntry (cnt t + 1)
      rw [hwin]
      exact List.mem_append_right _ (List.mem_singleton_self _)
  · rw [hline]
    intro x hx
    rcases List.mem_append.mp hx with hx | hx
    · exact hset.undone x hx
    · obtain rfl := List.mem_singleton.mp hx
      rw [hnew]
      exact ⟨rfl, rfl⟩
  · intro a
    have hrest : numbers s' a (line k s₁ len) = numbers s₁ a (line k s₁ len) :=
      numbers_congr fun _ _ => rfl
    have hpush : pushedBy s' a = pushedBy s a ++ if t = a then [s.nextNum] else [] := by
      show ((s.pushed ++ [(t, s.nextNum)]).filter _).map Prod.snd = _
      rw [List.filter_append, List.map_append]
      by_cases ha : t = a
      · simp [ha, pushedBy]
      · simp [ha, pushedBy]
    have hexec : executedBy s' a = executedBy s a := rfl
    have horder : pushedBy s a = executedBy s a ++ numbers s₁ a (line k s₁ len) := hset.order a
    rw [hpush, hexec, hline, numbers_append, hrest, horder, List.append_assoc]
    congr 2
    by_cases ha : t = a
    · subst ha
      have hlast := numbers_cons_self s' (t, (s.rob t).lastEntry) []
      rw [hnew] at hlast
      rw [if_pos rfl]
      exact hlast.symm
    · rw [if_neg ha]
      exact (numbers_eq_nil fun x hx => by
        obtain rfl := List.mem_singleton.mp hx
        exact ha).symm
  · show (s.pushed ++ [(t, s.nextNum)]).Nodup
    refine (List.perm_append_singleton _ _).nodup_iff.mpr (List.nodup_cons.mpr ⟨?_, h.once⟩)
    exact fun hin => lt_irrefl _ (h.numLt _ hin)
  · intro x hx
    show x.2 < s.nextNum + 1
    rcases List.mem_append.mp hx with hx | hx
    · exact (h.numLt x hx).trans (Nat.lt_succ_self _)
    · obtain rfl := List.mem_singleton.mp hx
      exact Nat.lt_succ_self _
  · rw [hline]
    intro x hx
    rcases List.mem_append.mp hx with hx | hx
    · exact h.lineLt x hx
    · obtain rfl := List.mem_singleton.mp hx
      exact h.liveLt t hlive

/-- A uop that is done does not wait, so the head of a buffer may go. -/
theorem Ordered.retire {k : SmcKnobs} {s : SmcSched} {len t : ℕ} {cnt : ℕ → ℕ}
    (h : Ordered k s len cnt) (hfree : (s.rob t).freeCnt ≠ k.robSize)
    (hdone : ((s.rob t).uops (s.rob t).firstEntry).doneCycle ≠ 0) :
    Ordered k (s.setRob t ((s.rob t).pop k)) len (Function.update cnt t (cnt t - 1)) := by
  have hold := h.robs t
  obtain ⟨c, hc⟩ : ∃ c, cnt t = c + 1 := by
    refine Nat.exists_eq_succ_of_ne_zero fun hzero => hfree ?_
    have := hold.count
    omega
  have hwin : window k.robMax (s.rob t).firstEntry (cnt t) =
      (s.rob t).firstEntry :: window k.robMax (((s.rob t).firstEntry + 1) % k.robMax) c := by
    rw [hc, window_succ, hold.first]
  refine h.setRob ⟨?_, Nat.mod_mod _ _, ?_⟩ ?_ fun x _ ht => by
    rw [SmcSched.uopAt, ht]
    rfl
  · have := hold.count
    show cnt t - 1 + ((s.rob t).freeCnt + 1) = _
    omega
  · show (s.rob t).lastEntry = (((s.rob t).firstEntry + 1) % k.robMax + (cnt t - 1)) % k.robMax
    rw [hold.last, Nat.mod_add_mod]
    congr 1
    omega
  · intro x hx ht
    have hin := h.inRob x hx
    rw [ht, hwin] at hin
    rcases List.mem_cons.mp hin with hhead | hin
    · have hzero := (h.undone x hx).1
      rw [SmcSched.uopAt, ht, hhead] at hzero
      exact absurd hzero hdone
    · rw [hc, Nat.add_sub_cancel]
      exact hin

/-- What is kept depends on the order, on what was executed and on the round. -/
theorem Kept.of_ordered {k : SmcKnobs} {s s' : SmcSched} {len : ℕ} {cnt : ℕ → ℕ} (h : Kept k s)
    (hord : Ordered k s' len cnt) (hexec : s'.executed = s.executed) (hround : s'.round = s.round) :
    Kept k s' := by
  refine ⟨⟨len, cnt, hord⟩, ?_, ?_⟩
  · rw [hexec, hround]
    exact h.2.1
  · rw [hexec]
    exact h.2.2

/-! ## Runs -/

/-- Each action keeps the order. -/
theorem Kept.step {k : SmcKnobs} {s : SmcSched} (h : Kept k s) (a : Act) :
    Ensures (s.step k a) (Kept k) := by
  obtain ⟨⟨len, cnt, hord⟩, -⟩ := id h
  cases a with
  | startThread =>
      show Ensures (s.startThread k) _
      unfold SmcSched.startThread
      split
      · exact .of_none
      · exact .of_some (h.of_ordered hord.startThread rfl rfl)
  | allocate t uopType space =>
      show Ensures (s.allocate k t uopType space) _
      unfold SmcSched.allocate
      split
      · exact .of_none
      · next hlive =>
          split
          · exact .of_some h
          · next hroom =>
              rw [not_or] at hroom
              have hord' := hord.allocate (not_not.mp hlive) hroom.1 uopType
              exact .of_some (h.of_ordered hord' rfl rfl)
  | runACycle exec ready => exact h.runACycle exec ready
  | complete t entry cycle =>
      show Ensures (s.complete t entry cycle) _
      unfold SmcSched.complete
      split
      · next hin =>
          obtain ⟨y, hy, ht, hnum⟩ := hin
          have hout : (t, entry) ∉ line k s len := fun hx => hord.not_executed hx hy ht hnum
          exact .of_some (h.of_ordered (hord.setDone hout cycle) rfl rfl)
      · exact .of_none
  | retire t ends =>
      show Ensures (s.retire k t ends) _
      unfold SmcSched.retire
      dsimp only
      split
      · exact .of_none
      · next hgo =>
          simp only [not_or] at hgo
          have hord' := hord.retire hgo.2.1 hgo.2.2.1
          refine .of_some (h.of_ordered { hord' with liveLt := ?_ } rfl rfl)
          intro a ha
          cases ends with
          | true => exact hord.liveLt a (List.mem_of_mem_erase ha)
          | false => exact hord.liveLt a ha
  | tick => exact .of_some (h.of_ordered { hord with } rfl rfl)

/-- Every run keeps the order. -/
theorem Kept.run {k : SmcKnobs} {acts : List Act} {s : SmcSched}
    (hrun : (SmcSched.new k).run k acts = some s) : Kept k s :=
  Ensures.foldlM acts (SmcSched.new k)
    ⟨⟨0, _, ordered_new k⟩, fun _ hx => (List.not_mem_nil hx).elim, List.Pairwise.nil⟩
    (fun _ hs a _ => hs.step a) s hrun

/-! ## The order of execution -/

/-- The slots of the circular list from its head to its end. -/
def slots (k : SmcKnobs) (s : SmcSched) : List ℕ :=
  window k.schlistSize s.firstSchlist
    ((s.lastSchlist + k.schlistSize - s.firstSchlist) % k.schlistSize)

/-- What the warp schedulers keep of the uops of a core. -/
structure IssuesInOrder (k : SmcKnobs) (s : SmcSched) : Prop where
  /-- the uops of a thread execute in the order in which they were pushed; those that have not
  executed wait in the list or in the queue -/
  inOrder : ∀ t, pushedBy s t =
    executedBy s t ++ numbers s t ((slots k s).filterMap s.schlist ++ s.allocQ)
  /-- no two uops are the same -/
  once : s.pushed.Nodup
  /-- what executes in one scheduling cycle differs in thread and in warp scheduler -/
  apart : s.executed.Pairwise fun a b =>
    a.round = b.round → a.thread ≠ b.thread ∧ a.sched ≠ b.sched
  /-- a waiting uop stands between head and end, and is counted -/
  inRange : ∀ i, s.schlist i ≠ none → i ∈ slots k s
  counted : s.numInSched = ((slots k s).filterMap s.schlist).length
  /-- no occupied slot was ever written -/
  intact : s.overwritten = false

/-- The slots that are used are a window of the schedule. -/
theorem Ordered.slots_eq {k : SmcKnobs} {s : SmcSched} {len : ℕ} {cnt : ℕ → ℕ}
    (h : Ordered k s len cnt) : slots k s = window k.schlistSize s.firstSchlist len := by
  have hlen : (s.lastSchlist + k.schlistSize - s.firstSchlist) % k.schlistSize = len := by
    have hfirst := h.first_lt
    have hlt := h.len_lt
    rw [h.last]
    by_cases hwrap : s.firstSchlist + len < k.schlistSize
    · rw [Nat.mod_eq_of_lt hwrap,
        show s.firstSchlist + len + k.schlistSize - s.firstSchlist = len + k.schlistSize by omega,
        Nat.add_mod_right, Nat.mod_eq_of_lt hlt]
    · have hend : (s.firstSchlist + len) % k.schlistSize =
          s.firstSchlist + len - k.schlistSize := by
        rw [Nat.mod_eq_sub_mod (by omega), Nat.mod_eq_of_lt (by omega)]
      rw [hend,
        show s.firstSchlist + len - k.schlistSize + k.schlistSize - s.firstSchlist = len by omega,
        Nat.mod_eq_of_lt hlt]
  unfold slots
  rw [hlen]

/-- In every state of every run, for any number of threads and warp schedulers and whatever
executes, the uops of each thread have executed in program order, each once, and no waiting uop
was lost. -/
theorem warps_issue_in_order {k : SmcKnobs} {acts : List Act} {s : SmcSched}
    (hrun : (SmcSched.new k).run k acts = some s) : IssuesInOrder k s := by
  obtain ⟨⟨len, cnt, h⟩, -, hapart⟩ := Kept.run hrun
  have hslots := h.slots_eq
  refine ⟨?_, h.once, hapart, ?_, ?_, h.intact⟩
  · rw [hslots]
    exact h.order
  · rw [hslots]
    exact h.inWindow
  · rw [hslots]
    exact h.total

/-- Two threads and two warp schedulers. -/
def twoWarps : SmcKnobs where
  numThreads := 2
  numThreads_pos := by decide
  numWarpScheduler := 2
  scheduleRatio := 1
  robSize := 4
  schedSize := 8
  schedRate := 8
  dispatchLatency := fun _ => 0

/-- Thread 0 has two uops and thread 1 one; in the first cycle that can both threads execute
one uop, in the next one the second uop of thread 0 does. -/
theorem warps_issue_in_order_two : ∃ s, (SmcSched.new twoWarps).run twoWarps
    [.startThread, .startThread, .allocate 0 .fsin true, .allocate 0 (.other 1) true,
      .allocate 1 (.other 1) true, .runACycle (fun _ _ => some (some 1)) 3,
      .runACycle (fun _ _ => some (some 1)) 0, .tick,
      .runACycle (fun _ _ => some (some 1)) 0] = some s ∧
      s.executed.map (fun x => (x.thread, x.num)) = [(1, 2), (0, 0), (0, 1)] ∧
      IssuesInOrder twoWarps s := by
  obtain ⟨s, hrun, hexec⟩ : ∃ s, (SmcSched.new twoWarps).run twoWarps
      [.startThread, .startThread, .allocate 0 .fsin true, .allocate 0 (.other 1) true,
        .allocate 1 (.other 1) true, .runACycle (fun _ _ => some (some 1)) 3,
        .runACycle (fun _ _ => some (some 1)) 0, .tick,
        .runACycle (fun _ _ => some (some 1)) 0] = some s ∧
        s.executed.map (fun x => (x.thread, x.num)) = [(1, 2), (0, 0), (0, 1)] := ⟨_, rfl, rfl⟩
  exact ⟨s, hrun, hexec, warps_issue_in_order hrun⟩

end SmcSched

end MacSim.Analysis
