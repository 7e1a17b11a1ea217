import MacSim.Model.OooSchedule
import MacSim.Computation.Ring
import MacSim.Computation.Partial

/-!
# The books of the out-of-order scheduler

The schedule list is a circular window with holes.  Its counters count the occupied slots, in
total and for each queue type; the entries in it and in the allocation queues are different
entries of the reorder buffer whose uops have not executed, so that no uop leaves the buffer
before it has executed.  A scan that starts on a list with waiting uops either moves the head
or leaves the head on a waiting uop, so that an empty scheduler always has room.
-/

set_option autoImplicit false

namespace MacSim.Analysis

open MacSim.Model MacSim.Computation

namespace OooSched

open MacSim.Model.OooSched

/-- The entries of the schedule list, from its head on. -/
def waiting (s : OooSched) (len : ℕ) : List ℕ :=
  (window maxSchedSize s.first len).filterMap s.scheduleList

/-- The entries of the allocation queues. -/
def pending (s : OooSched) : List ℕ :=
  s.allocQ .gen ++ s.allocQ .mem ++ s.allocQ .fp ++ s.allocQ .simd

/-- What holds of the list and of the reorder buffer in every state: the list has `len` slots
and the buffer has `cnt` uops. -/
structure Lists (k : SchedKnobs) (s : OooSched) (len cnt : ℕ) : Prop where
  first_lt : s.first < maxSchedSize
  len_lt : len < maxSchedSize
  last : s.last = (s.first + len) % maxSchedSize
  inWindow : ∀ i, s.scheduleList i ≠ none → i ∈ window maxSchedSize s.first len
  intact : s.overwritten = false
  total : s.numInSched = (waiting s len).length
  perQueue : ∀ q, s.numPerSched q =
    (waiting s len).countP fun e => decide ((s.rob e).allocqNum = q)
  robCount : cnt + s.robFree = k.robSize
  robFirst : s.robFirst % robMax k = s.robFirst
  robLast : s.robLast = (s.robFirst + cnt) % robMax k
  entries : (pending s ++ waiting s len).Nodup
  unexecuted : ∀ e ∈ pending s ++ waiting s len,
    e ∈ window (robMax k) s.robFirst cnt ∧ (s.rob e).execCycle = 0
  nums : ((window (robMax k) s.robFirst cnt).map fun e => (s.rob e).num).Nodup
  numLt : ∀ e ∈ window (robMax k) s.robFirst cnt, (s.rob e).num < s.nextNum
  movedPerm : s.moved.Perm (s.executed ++ (waiting s len).map fun e => (s.rob e).num)
  movedNodup : s.moved.Nodup
  movedLt : ∀ n ∈ s.moved, n < s.nextNum
  fresh : ∀ e ∈ pending s, (s.rob e).num ∉ s.moved

/-- The schedule has room for an entry. -/
theorem maxSchedSize_pos : 0 < maxSchedSize := by decide

/-- A new scheduler lists nothing. -/
theorem Lists.new (k : SchedKnobs) : Lists k (OooSched.new k) 0 0 where
  first_lt := maxSchedSize_pos
  len_lt := maxSchedSize_pos
  last := rfl
  inWindow := fun _ h => (h rfl).elim
  intact := rfl
  total := rfl
  perQueue := fun _ => rfl
  robCount := Nat.zero_add _
  robFirst := Nat.zero_mod _
  robLast := (Nat.zero_mod _).symm
  entries := List.nodup_nil
  unexecuted := fun _ h => (List.not_mem_nil h).elim
  nums := List.nodup_nil
  numLt := fun _ h => (List.not_mem_nil h).elim
  movedPerm := List.Perm.refl _
  movedNodup := List.nodup_nil
  movedLt := fun _ h => (List.not_mem_nil h).elim
  fresh := fun _ h => (List.not_mem_nil h).elim

/-! ## The scan -/

/-- The waiting entries do not change when the head passes a hole. -/
theorem Lists.passHole {k : SchedKnobs} {s : OooSched} {len cnt : ℕ}
    (h : Lists k s (len + 1) cnt) (hhole : s.scheduleList s.first = none) :
    Lists k { s with first := (s.first + 1) % maxSchedSize } len cnt := by
  have hmod : s.first % maxSchedSize = s.first := Nat.mod_eq_of_lt h.first_lt
  have hwait : waiting { s with first := (s.first + 1) % maxSchedSize } len =
      waiting s (len + 1) := by
    unfold waiting
    rw [window_succ, hmod, List.filterMap_cons_none hhole]
  refine
    { h with
      first_lt := Nat.mod_lt _ maxSchedSize_pos
      len_lt := (Nat.lt_succ_self len).trans h.len_lt
      last := ?_
      inWindow := ?_
      total := hwait ▸ h.total
      perQueue := ?_
      entries := hwait ▸ h.entries
      unexecuted := ?_
      movedPerm := ?_ }
  · rw [Nat.mod_add_mod, h.last]
    congr 1
    omega
  · intro i hi
    have hmem := h.inWindow i hi
    rw [window_succ, hmod] at hmem
    rcases List.mem_cons.mp hmem with rfl | hmem
    · exact absurd hhole hi
    · exact hmem
  · intro q
    rw [hwait]
    exact h.perQueue q
  · rw [hwait]
    exact h.unexecuted
  · rw [hwait]
    exact h.movedPerm

/-- Clearing a slot of a window takes its entry out. -/
theorem perm_filterMap_clear {l : List ℕ} {f : ℕ → Option ℕ} {i e : ℕ} (hl : l.Nodup)
    (hi : i ∈ l) (he : f i = some e) :
    (l.filterMap f).Perm (e :: l.filterMap (Function.update f i none)) := by
  induction l with
  | nil => exact (List.not_mem_nil hi).elim
  | cons a l ih =>
      obtain ⟨ha, hl⟩ := List.nodup_cons.mp hl
      rcases List.mem_cons.mp hi with rfl | hi
      · have hsame : l.filterMap (Function.update f i none) = l.filterMap f := by
          refine List.filterMap_congr fun b hb => ?_
          exact Function.update_of_ne (fun hbi : b = i => ha (hbi ▸ hb)) _ _
        rw [List.filterMap_cons_some he, List.filterMap_cons_none (Function.update_self _ _ _), hsame]
      · have hne : a ≠ i := fun hai => ha (hai ▸ hi)
        have hupd : Function.update f i none a = f a := Function.update_of_ne hne _ _
        cases hfa : f a with
        | none =>
            rw [List.filterMap_cons_none hfa, List.filterMap_cons_none (hupd.trans hfa)]
            exact ih hl hi
        | some b =>
            rw [List.filterMap_cons_some hfa, List.filterMap_cons_some (hupd.trans hfa)]
            exact ((ih hl hi).cons b).trans (List.Perm.swap e b _)

/-- A write to the uops that keeps their numbers and queues, and executes none that waits. -/
theorem Lists.setRob {k : SchedKnobs} {s : OooSched} {len cnt : ℕ} {rob : ℕ → SchedUop}
    (h : Lists k s len cnt) (hnum : ∀ d, (rob d).num = (s.rob d).num)
    (hqueue : ∀ d, (rob d).allocqNum = (s.rob d).allocqNum)
    (hexec : ∀ d ∈ pending s ++ waiting s len, (rob d).execCycle = (s.rob d).execCycle) :
    Lists k { s with rob := rob } len cnt where
  first_lt := h.first_lt
  len_lt := h.len_lt
  last := h.last
  inWindow := h.inWindow
  intact := h.intact
  total := h.total
  perQueue := fun q => by
    simp only [hqueue]
    exact h.perQueue q
  robCount := h.robCount
  robFirst := h.robFirst
  robLast := h.robLast
  entries := h.entries
  unexecuted := fun d hd => ⟨(h.unexecuted d hd).1, (hexec d hd).trans (h.unexecuted d hd).2⟩
  nums := by
    simp only [hnum]
    exact h.nums
  numLt := by
    simp only [hnum]
    exact h.numLt
  movedPerm := by
    simp only [hnum]
    exact h.movedPerm
  movedNodup := h.movedNodup
  movedLt := h.movedLt
  fresh := by
    simp only [hnum]
    exact h.fresh

/-- A write to one uop; a uop that waits is not executed by it. -/
theorem Lists.setUop {k : SchedKnobs} {s : OooSched} {len cnt e : ℕ} {u : SchedUop}
    (h : Lists k s len cnt) (hnum : u.num = (s.rob e).num)
    (hqueue : u.allocqNum = (s.rob e).allocqNum)
    (hexec : e ∈ pending s ++ waiting s len → u.execCycle = (s.rob e).execCycle) :
    Lists k { s with rob := Function.update s.rob e u } len cnt := by
  refine h.setRob ?_ ?_ ?_
  · intro d
    by_cases hd : d = e
    · simpa [hd] using hnum
    · simp [hd]
  · intro d
    by_cases hd : d = e
    · simpa [hd] using hqueue
    · simp [hd]
  · intro d hin
    by_cases hd : d = e
    · subst hd
      simpa using hexec hin
    · simp [hd]

/-- A uop that executes passes the assertions and leaves the list. -/
theorem Lists.execute {k : SchedKnobs} {s : OooSched} {len cnt i e : ℕ} (h : Lists k s len cnt)
    (hslot : s.scheduleList i = some e) (latency : Option ℕ) :
    ∃ s', s.uopExecuted e latency = some s' ∧
      s'.scheduleList = s.scheduleList ∧ s'.first = s.first ∧ s'.last = s.last ∧
      Lists k { s' with scheduleList := Function.update s'.scheduleList i none } len cnt := by
  have hi : i ∈ window maxSchedSize s.first len := h.inWindow i (by simp [hslot])
  have hperm : (waiting s len).Perm
      (e :: (window maxSchedSize s.first len).filterMap (Function.update s.scheduleList i none)) :=
    perm_filterMap_clear (nodup_window h.len_lt.le) hi hslot
  set rest := (window maxSchedSize s.first len).filterMap (Function.update s.scheduleList i none)
    with hrest
  have htotal : s.numInSched = rest.length + 1 := by
    rw [h.total, hperm.length_eq, List.length_cons]
  have hper : ∀ q, s.numPerSched q = rest.countP (fun e => decide ((s.rob e).allocqNum = q)) +
      if (s.rob e).allocqNum = q then 1 else 0 := by
    intro q
    rw [h.perQueue q, hperm.countP_eq, List.countP_cons]
    simp
  have hself := hper (s.rob e).allocqNum
  rw [if_pos rfl] at hself
  have hassert : ¬ (s.numInSched = 0 ∨ s.numPerSched (s.rob e).allocqNum = 0) := by omega
  have hentries : (e :: (pending s ++ rest)).Nodup :=
    List.perm_middle.nodup_iff.mp ((List.Perm.append_left _ hperm).nodup_iff.mp h.entries)
  obtain ⟨hout, hentries⟩ := List.nodup_cons.mp hentries
  have hcleared : Lists k { s with
      scheduleList := Function.update s.scheduleList i none
      numInSched := s.numInSched - 1
      numPerSched := Function.update s.numPerSched (s.rob e).allocqNum
        (s.numPerSched (s.rob e).allocqNum - 1)
      executed := s.executed ++ [(s.rob e).num] } len cnt := by
    refine
      { h with
        inWindow := ?_
        total := ?_
        perQueue := ?_
        entries := hentries
        unexecuted := ?_
        movedPerm := ?_ }
    · intro j hj
      refine h.inWindow j fun hnone => hj ?_
      by_cases hji : j = i
      · simp [hji]
      · simp [hji, hnone]
    · show s.numInSched - 1 = rest.length
      omega
    · intro q
      show Function.update s.numPerSched (s.rob e).allocqNum _ q = rest.countP _
      by_cases hq : q = (s.rob e).allocqNum
      · subst hq
        rw [Function.update_self]
        exact Nat.sub_eq_of_eq_add hself
      · rw [Function.update_of_ne hq, hper q, if_neg (fun he => hq he.symm), Nat.add_zero]
    · intro d hd
      refine h.unexecuted d ?_
      rcases List.mem_append.mp hd with hd | hd
      · exact List.mem_append_left _ hd
      · exact List.mem_append_right _ (hperm.mem_iff.mpr (List.mem_cons_of_mem _ hd))
    · refine h.movedPerm.trans ?_
      show (s.executed ++ (waiting s len).map _).Perm
        ((s.executed ++ [(s.rob e).num]) ++ rest.map _)
      rw [List.append_assoc]
      exact List.Perm.append_left _ (hperm.map _)
  refine ⟨_, if_neg hassert, rfl, rfl, rfl, ?_⟩
  exact hcleared.setUop rfl rfl fun hin => absurd hin hout

/-- A list whose head slot is occupied has a waiting uop. -/
theorem Lists.pos_of_head {k : SchedKnobs} {s : OooSched} {len cnt : ℕ} (h : Lists k s len cnt)
    (hhead : s.scheduleList s.first ≠ none) : 0 < s.numInSched := by
  obtain ⟨e, he⟩ := Option.ne_none_iff_exists'.mp hhead
  rw [h.total]
  exact List.length_pos_of_mem
    (List.mem_filterMap.mpr ⟨s.first, h.inWindow s.first hhead, he⟩)

/-- The scan from the slot `j` behind the head.  The head stands on the slot of the scan or on
a waiting uop. -/
theorem Lists.scan {k : SchedKnobs} (exec : ℕ → Option (Option ℕ)) (fuel : ℕ) {s : OooSched}
    {len cnt j count : ℕ} (h : Lists k s len cnt) (hj : j ≤ len)
    (hhead : j = 0 ∨ s.scheduleList s.first ≠ none) (hfuel : len - j < fuel) :
    ∃ s' len', OooSched.scan k exec fuel ((s.first + j) % maxSchedSize) count s = some s' ∧
      Lists k s' len' cnt ∧ (s'.numInSched = 0 → len' + 1 < maxSchedSize) := by
  have hmod : s.first % maxSchedSize = s.first := Nat.mod_eq_of_lt h.first_lt
  induction fuel generalizing s len j count with
  | zero => exact absurd hfuel (Nat.not_lt_zero _)
  | succ fuel ih =>
      unfold OooSched.scan
      split
      · next hend =>
          -- the scan is at the end of the list
          have hlen : j = len := add_mod_inj (hj.trans_lt h.len_lt) h.len_lt (hend.trans h.last)
          refine ⟨s, len, rfl, h, fun hzero => ?_⟩
          rcases hhead with rfl | hhead
          · rw [← hlen]
            decide
          · exact absurd hzero (h.pos_of_head hhead).ne'
      · next hend =>
          have hlt : j < len := by
            refine lt_of_le_of_ne hj fun he => hend ?_
            rw [he, h.last]
          have hnext : ((s.first + j) % maxSchedSize + 1) % maxSchedSize =
              (s.first + (j + 1)) % maxSchedSize := by
            rw [Nat.mod_add_mod, Nat.add_assoc]
          have hat : (s.first + j) % maxSchedSize = s.first ↔ j = 0 := by
            constructor
            · intro he
              have hzero : (s.first + j) % maxSchedSize = (s.first + 0) % maxSchedSize :=
                he.trans hmod.symm
              exact add_mod_inj (hlt.trans h.len_lt) maxSchedSize_pos hzero
            · rintro rfl
              exact hmod
          rw [hnext]
          split
          · next e hslot =>
              split
              · next latency _ =>
                  obtain ⟨s₁, hexec, hlist, hfirst, -, h₁⟩ := h.execute hslot latency
                  rw [hexec]
                  dsimp only [Option.bind_eq_bind, Option.bind_some]
                  by_cases hj₀ : j = 0
                  · -- the head passes the uop that executed
                    subst hj₀
                    obtain ⟨len, rfl⟩ := Nat.exists_eq_add_of_lt hlt
                    rw [Nat.zero_add] at h h₁ hfuel ⊢
                    have hi : (s.first + 0) % maxSchedSize = s₁.first := hfirst ▸ hmod
                    have hpass : s₁.passHead ((s.first + 0) % maxSchedSize) =
                        { s₁ with first := (s₁.first + 1) % maxSchedSize } := if_pos hi
                    have hhole : Function.update s₁.scheduleList
                        ((s.first + 0) % maxSchedSize) none s₁.first = none := by
                      rw [hi, Function.update_self]
                    have h₂ := h₁.passHole hhole
                    rw [hpass]
                    split
                    · exact ⟨_, len, rfl, h₂, fun _ => h.len_lt⟩
                    · have hrest := @ih _ _ 0 (count + 1) h₂ (Nat.zero_le _) (.inl rfl)
                        (by omega) (Nat.mod_mod _ _)
                      simpa [hfirst] using hrest
                  · have hi : (s.first + j) % maxSchedSize ≠ s₁.first := by
                      rw [hfirst]
                      exact fun he => hj₀ (hat.mp he)
                    have hpass : s₁.passHead ((s.first + j) % maxSchedSize) = s₁ := if_neg hi
                    have hhead' : Function.update s₁.scheduleList ((s.first + j) % maxSchedSize)
                        none s₁.first ≠ none := by
                      rw [Function.update_of_ne hi.symm, hlist, hfirst]
                      exact hhead.resolve_left hj₀
                    rw [hpass]
                    split
                    · exact ⟨_, len, rfl, h₁, fun hzero =>
                        absurd hzero (h₁.pos_of_head hhead').ne'⟩
                    · have hrest := @ih _ _ (j + 1) (count + 1) h₁ hlt (.inr hhead')
                        (by omega) (hfirst ▸ hmod)
                      simpa [hfirst] using hrest
              · refine ih h hlt (.inr ?_) (by omega) hmod
                rcases hhead with rfl | hhead
                · rw [← hat.mpr rfl, hslot]
                  simp
                · exact hhead
          · next hslot =>
              by_cases hj₀ : j = 0
              · subst hj₀
                obtain ⟨len, rfl⟩ := Nat.exists_eq_add_of_lt hlt
                rw [Nat.zero_add] at h hfuel
                have hpass : s.passHead ((s.first + 0) % maxSchedSize) =
                    { s with first := (s.first + 1) % maxSchedSize } := if_pos hmod
                rw [hat.mpr rfl] at hslot
                rw [hpass]
                have hrest := @ih _ _ 0 count (h.passHole hslot) (Nat.zero_le _)
                  (.inl rfl) (by omega) (Nat.mod_mod _ _)
                simpa using hrest
              · have hpass : s.passHead ((s.first + j) % maxSchedSize) = s :=
                  if_neg fun he => hj₀ (hat.mp he)
                rw [hpass]
                exact ih h hlt (.inr (hhead.resolve_left hj₀)) (by omega) hmod

/-! ## Insertion -/

/-- Taking an entry out of one part of a list. -/
theorem perm_take {l rest : List ℕ} {e : ℕ} (h : l.Perm (e :: rest)) (x y : List ℕ) :
    (x ++ l ++ y).Perm (e :: (x ++ rest ++ y)) := by
  have hmid : (x ++ l).Perm (e :: (x ++ rest)) :=
    (List.Perm.append_left x h).trans List.perm_middle
  exact List.Perm.append_right y hmid

/-- Taking an entry out of one queue. -/
theorem pending_take {f : AllocQ → List ℕ} {q : AllocQ} {e : ℕ} {rest : List ℕ}
    (hq : (f q).Perm (e :: rest)) :
    (f .gen ++ f .mem ++ f .fp ++ f .simd).Perm
      (e :: (Function.update f q rest .gen ++ Function.update f q rest .mem ++
        Function.update f q rest .fp ++ Function.update f q rest .simd)) := by
  cases q with
  | gen => simpa using perm_take hq [] (f .mem ++ f .fp ++ f .simd)
  | mem => simpa using perm_take hq (f .gen) (f .fp ++ f .simd)
  | fp => simpa using perm_take hq (f .gen ++ f .mem) (f .simd)
  | simd => simpa using perm_take hq (f .gen ++ f .mem ++ f .fp) []

/-- A dequeued entry that is dropped. -/
theorem Lists.dequeue {k : SchedKnobs} {s : OooSched} {len cnt e : ℕ} {q : AllocQ}
    {rest : List ℕ} (h : Lists k s len cnt) (hq : s.allocQ q = e :: rest) :
    Lists k { s with allocQ := Function.update s.allocQ q rest } len cnt := by
  have hperm := pending_take (List.Perm.of_eq hq)
  have hsub : ∀ d, d ∈ pending { s with allocQ := Function.update s.allocQ q rest } →
      d ∈ pending s := fun d hd => hperm.mem_iff.mpr (List.mem_cons_of_mem _ hd)
  refine { h with entries := ?_, unexecuted := ?_, fresh := fun d hd => h.fresh d (hsub d hd) }
  · have hnd := (List.Perm.append_right (waiting s len) hperm).nodup_iff.mp h.entries
    exact (List.nodup_cons.mp hnd).2
  · intro d hd
    refine h.unexecuted d ?_
    rcases List.mem_append.mp hd with hd | hd
    · exact List.mem_append_left _ (hsub d hd)
    · exact List.mem_append_right _ hd

/-- The last slot of the list is free. -/
theorem Lists.last_free {k : SchedKnobs} {s : OooSched} {len cnt : ℕ} (h : Lists k s len cnt) :
    s.scheduleList s.last = none := by
  by_contra hocc
  have hmem := h.inWindow s.last hocc
  rw [h.last] at hmem
  exact end_not_mem_window h.len_lt hmem

/-- A dequeued entry that is inserted. -/
theorem Lists.insert {k : SchedKnobs} {s : OooSched} {len cnt e : ℕ} {q : AllocQ}
    {rest : List ℕ} (h : Lists k s len cnt) (hq : s.allocQ q = e :: rest)
    (hroom : len + 1 < maxSchedSize) :
    Lists k { s with
      allocQ := Function.update s.allocQ q rest
      numInSched := s.numInSched + 1
      overwritten := s.overwritten || (s.scheduleList s.last).isSome
      scheduleList := Function.update s.scheduleList s.last (some e)
      last := (s.last + 1) % maxSchedSize
      numPerSched := Function.update s.numPerSched (s.rob e).allocqNum
        (s.numPerSched (s.rob e).allocqNum + 1)
      moved := s.moved ++ [(s.rob e).num] } (len + 1) cnt := by
  have hperm := pending_take (List.Perm.of_eq hq)
  set s' : OooSched := { s with
    allocQ := Function.update s.allocQ q rest
    numInSched := s.numInSched + 1
    overwritten := s.overwritten || (s.scheduleList s.last).isSome
    scheduleList := Function.update s.scheduleList s.last (some e)
    last := (s.last + 1) % maxSchedSize
    numPerSched := Function.update s.numPerSched (s.rob e).allocqNum
      (s.numPerSched (s.rob e).allocqNum + 1)
    moved := s.moved ++ [(s.rob e).num] } with hs'
  have hpend : (pending s).Perm (e :: pending s') := hperm
  have hwait : waiting s' (len + 1) = waiting s len ++ [e] := by
    have hold : (window maxSchedSize s.first len).filterMap
        (Function.update s.scheduleList s.last (some e)) = waiting s len := by
      refine List.filterMap_congr fun i hi => Function.update_of_ne ?_ _ _
      rintro rfl
      rw [h.last] at hi
      exact end_not_mem_window h.len_lt hi
    show (window maxSchedSize s.first (len + 1)).filterMap
      (Function.update s.scheduleList s.last (some e)) = _
    rw [window_concat, List.filterMap_append, hold, ← h.last]
    simp
  have hfresh : (s.rob e).num ∉ s.moved := h.fresh e (hpend.mem_iff.mpr List.mem_cons_self)
  have hmem : e ∈ pending s := hpend.mem_iff.mpr List.mem_cons_self
  have hentries : (e :: (pending s' ++ waiting s len)).Nodup :=
    (List.Perm.append_right (waiting s len) hpend).nodup_iff.mp h.entries
  have hall : (pending s ++ waiting s len).Perm (pending s' ++ waiting s' (len + 1)) := by
    rw [hwait]
    refine (List.Perm.append_right _ hpend).trans ?_
    rw [← List.append_assoc]
    exact (List.perm_append_singleton e _).symm
  refine
    { h with
      len_lt := hroom
      last := ?_
      inWindow := ?_
      intact := ?_
      total := ?_
      perQueue := ?_
      entries := hall.nodup_iff.mp h.entries
      unexecuted := fun d hd => h.unexecuted d (hall.mem_iff.mpr hd)
      movedPerm := ?_
      movedNodup := ?_
      movedLt := ?_
      fresh := ?_ }
  · show (s.last + 1) % maxSchedSize = _
    rw [h.last, Nat.mod_add_mod]
    rfl
  · intro i hi
    show i ∈ window maxSchedSize s.first (len + 1)
    rw [window_concat, ← h.last]
    by_cases hil : i = s.last
    · simp [hil]
    · refine List.mem_append_left _ (h.inWindow i ?_)
      have hi' : Function.update s.scheduleList s.last (some e) i ≠ none := hi
      rwa [Function.update_of_ne hil] at hi'
  · show (s.overwritten || (s.scheduleList s.last).isSome) = false
    rw [h.intact, h.last_free]
    rfl
  · rw [hwait, List.length_append]
    exact congrArg (· + 1) h.total
  · intro p
    rw [hwait, List.countP_append, List.countP_singleton]
    show Function.update s.numPerSched (s.rob e).allocqNum _ p = _
    by_cases hp : p = (s.rob e).allocqNum
    · subst hp
      rw [Function.update_self, if_pos (by simp [hs'])]
      exact congrArg (· + 1) (h.perQueue _)
    · rw [Function.update_of_ne hp, if_neg (by simp [hs', Ne.symm hp]), Nat.add_zero]
      exact h.perQueue p
  · rw [hwait, List.map_append, ← List.append_assoc]
    exact List.Perm.append_right _ h.movedPerm
  · show (s.moved ++ [(s.rob e).num]).Nodup
    exact (List.perm_append_singleton _ _).nodup_iff.mpr
      (List.nodup_cons.mpr ⟨hfresh, h.movedNodup⟩)
  · intro n hn
    rcases List.mem_append.mp hn with hn | hn
    · exact h.movedLt n hn
    · obtain rfl := List.mem_singleton.mp hn
      exact h.numLt e (h.unexecuted e (List.mem_append_left _ hmem)).1
  · intro d hd hin
    have hd' : d ∈ pending s := hpend.mem_iff.mpr (List.mem_cons_of_mem _ hd)
    rcases List.mem_append.mp hin with hin | hin
    · exact h.fresh d hd' hin
    · -- two entries of the buffer have different numbers
      have hnum : (s.rob d).num = (s.rob e).num := List.mem_singleton.mp hin
      have hde : d = e := List.inj_on_of_nodup_map h.nums
        (h.unexecuted d (List.mem_append_left _ hd')).1
        (h.unexecuted e (List.mem_append_left _ hmem)).1 hnum
      exact (List.nodup_cons.mp hentries).1 (List.mem_append_left _ (hde ▸ hd))

/-- The books with room for an empty scheduler. -/
def Accounted (k : SchedKnobs) (s : OooSched) : Prop :=
  ∃ len cnt, Lists k s len cnt ∧ (s.numInSched = 0 → len + 1 < maxSchedSize)

/-- Advancing an allocation queue keeps the account. -/
theorem Accounted.advanceLoop {k : SchedKnobs} (q : AllocQ) (n : ℕ) (count : AllocQ → ℕ)
    {s : OooSched} (h : Accounted k s) : Accounted k (OooSched.advanceLoop k q n count s) := by
  induction n generalizing count s with
  | zero => exact h
  | succ n ih =>
      unfold OooSched.advanceLoop
      split
      · exact h
      · next e rest hq =>
          split
          · exact h
          · next hfull =>
              obtain ⟨len, cnt, hl, hroom⟩ := h
              have hlen : len + 1 < maxSchedSize := by
                refine lt_of_le_of_ne hl.len_lt fun he => hfull ?_
                rw [hl.last]
                exact (full_iff hl.first_lt hl.len_lt).mpr he
              dsimp only
              split
              · exact ⟨len, cnt, hl, hroom⟩
              · split
                · exact ih _ ⟨len, cnt, (hl.dequeue hq).setUop rfl rfl fun _ => rfl, hroom⟩
                · exact ih _ ⟨len + 1, cnt, hl.insert hq hlen, fun hzero =>
                    absurd hzero (Nat.succ_ne_zero _)⟩

/-- A cycle of the scheduler passes its assertions and keeps the books. -/
theorem Accounted.runACycle {k : SchedKnobs} {s : OooSched} (h : Accounted k s)
    (exec : ℕ → Option (Option ℕ)) (ready : AllocQ → ℕ) :
    ∃ s', s.runACycle k exec ready = some s' ∧ Accounted k s' := by
  have hscan : ∃ s₁, (if s.numInSched ≠ 0 then OooSched.scan k exec maxSchedSize s.first 0 s
      else some s) = some s₁ ∧ Accounted k s₁ := by
    split
    · obtain ⟨len, cnt, hl, -⟩ := h
      obtain ⟨s₁, len₁, hs₁, hl₁, hroom₁⟩ := @Lists.scan k exec maxSchedSize s len cnt 0 0 hl
        (Nat.zero_le _) (.inl rfl) hl.len_lt
      rw [Nat.add_zero, Nat.mod_eq_of_lt hl.first_lt] at hs₁
      exact ⟨s₁, hs₁, len₁, cnt, hl₁, hroom₁⟩
    · exact ⟨s, rfl, h⟩
  obtain ⟨s₁, hs₁, h₁⟩ := hscan
  have h₂ : Accounted k ((((s₁.advance k .gen (ready .gen)).advance k .mem (ready .mem)).advance
      k .fp (ready .fp)).advance k .simd (ready .simd)) :=
    (((h₁.advanceLoop .gen _ _).advanceLoop .mem _ _).advanceLoop .fp _ _).advanceLoop .simd _ _
  refine ⟨_, ?_, h₂⟩
  unfold OooSched.runACycle
  by_cases hn : s.numInSched ≠ 0
  · rw [if_pos hn] at hs₁ ⊢
    rw [hs₁]
    rfl
  · rw [if_neg hn] at hs₁ ⊢
    rw [hs₁]
    rfl

/-! ## The reorder buffer -/

/-- Allocating an entry keeps the account. -/
theorem Accounted.allocate {k : SchedKnobs} {s s' : OooSched} {q : AllocQ} {bogus : Bool}
    (h : Accounted k s) (hs : s.allocate k q bogus = some s') : Accounted k s' := by
  obtain ⟨len, cnt, hl, hroom⟩ := h
  unfold OooSched.allocate at hs
  split at hs
  · simp at hs
  · next hfree =>
      obtain rfl := Option.some.inj hs
      have hcnt : cnt < robMax k := by
        have := hl.robCount
        unfold robMax
        omega
      have hout : s.robLast ∉ window (robMax k) s.robFirst cnt :=
        hl.robLast ▸ end_not_mem_window hcnt
      have hrob : ∀ d ∈ window (robMax k) s.robFirst cnt,
          Function.update s.rob s.robLast ⟨s.nextNum, q, bogus, 0, 0⟩ d = s.rob d := fun d hd =>
        Function.update_of_ne (fun he : d = s.robLast => hout (he ▸ hd)) _ _
      have hwin : ∀ d ∈ waiting s len, d ∈ window (robMax k) s.robFirst cnt := fun d hd =>
        (hl.unexecuted d (List.mem_append_right _ hd)).1
      set s' : OooSched := { s with
        allocQ := Function.update s.allocQ q (s.allocQ q ++ [s.robLast])
        rob := Function.update s.rob s.robLast ⟨s.nextNum, q, bogus, 0, 0⟩
        robLast := (s.robLast + 1) % robMax k
        robFree := s.robFree - 1
        nextNum := s.nextNum + 1 } with hs'
      have hpend : (pending s').Perm (s.robLast :: pending s) := by
        have hperm : (s'.allocQ q).Perm (s.robLast :: s.allocQ q) := by
          show (Function.update s.allocQ q _ q).Perm _
          rw [Function.update_self]
          exact List.perm_append_singleton _ _
        have hback : Function.update s'.allocQ q (s.allocQ q) = s.allocQ := by
          show Function.update (Function.update s.allocQ q _) q _ = _
          rw [Function.update_idem, Function.update_eq_self]
        have htake := pending_take hperm
        rw [hback] at htake
        exact htake
      have hall : (pending s' ++ waiting s len).Perm
          (s.robLast :: (pending s ++ waiting s len)) := List.Perm.append_right _ hpend
      refine ⟨len, cnt + 1, ?_, hroom⟩
      refine
        { hl with
          perQueue := ?_
          robCount := ?_
          robLast := ?_
          entries := ?_
          unexecuted := ?_
          nums := ?_
          numLt := ?_
          movedPerm := ?_
          movedLt := fun n hn => (hl.movedLt n hn).trans (Nat.lt_succ_self _)
          fresh := ?_ }
      · intro p
        refine (hl.perQueue p).trans (List.countP_congr fun d hd => ?_)
        show decide ((s.rob d).allocqNum = p) = true ↔ decide ((Function.update s.rob s.robLast
          ⟨s.nextNum, q, bogus, 0, 0⟩ d).allocqNum = p) = true
        rw [hrob d (hwin d hd)]
      · have := hl.robCount
        show cnt + 1 + (s.robFree - 1) = _
        omega
      · show (s.robLast + 1) % robMax k = _
        rw [hl.robLast, Nat.mod_add_mod]
        rfl
      · refine hall.nodup_iff.mpr (List.nodup_cons.mpr ⟨fun hin => ?_, hl.entries⟩)
        exact hout (hl.unexecuted _ hin).1
      · intro d hd
        rw [window_concat, ← hl.robLast]
        rcases List.mem_cons.mp (hall.mem_iff.mp hd) with rfl | hd
        · exact ⟨List.mem_append_right _ (List.mem_singleton_self _), by simp [hs']⟩
        · obtain ⟨hin, hzero⟩ := hl.unexecuted d hd
          refine ⟨List.mem_append_left _ hin, ?_⟩
          show (Function.update s.rob s.robLast _ d).execCycle = 0
          rw [hrob d hin]
          exact hzero
      · show ((window (robMax k) s.robFirst (cnt + 1)).map fun e =>
          (Function.update s.rob s.robLast ⟨s.nextNum, q, bogus, 0, 0⟩ e).num).Nodup
        have hmap : (window (robMax k) s.robFirst cnt).map (fun e =>
            (Function.update s.rob s.robLast ⟨s.nextNum, q, bogus, 0, 0⟩ e).num) =
            (window (robMax k) s.robFirst cnt).map fun e => (s.rob e).num :=
          List.map_congr_left fun d hd => by rw [hrob d hd]
        rw [window_concat, ← hl.robLast, List.map_append, hmap, List.map_singleton,
          Function.update_self]
        refine (List.perm_append_singleton _ _).nodup_iff.mpr (List.nodup_cons.mpr ⟨?_, hl.nums⟩)
        intro hin
        obtain ⟨d, hd, hnum⟩ := List.mem_map.mp hin
        exact absurd hnum (hl.numLt d hd).ne
      · intro d hd
        rw [window_concat, ← hl.robLast] at hd
        show (Function.update s.rob s.robLast ⟨s.nextNum, q, bogus, 0, 0⟩ d).num < s.nextNum + 1
        rcases List.mem_append.mp hd with hd | hd
        · rw [hrob d hd]
          exact (hl.numLt d hd).trans (Nat.lt_succ_self _)
        · obtain rfl := List.mem_singleton.mp hd
          rw [Function.update_self]
          exact Nat.lt_succ_self _
      · have hmap : (waiting s len).map (fun e =>
            (Function.update s.rob s.robLast ⟨s.nextNum, q, bogus, 0, 0⟩ e).num) =
            (waiting s len).map fun e => (s.rob e).num :=
          List.map_congr_left fun d hd => by rw [hrob d (hwin d hd)]
        show s.moved.Perm (s.executed ++ (waiting s len).map (fun e =>
          (Function.update s.rob s.robLast ⟨s.nextNum, q, bogus, 0, 0⟩ e).num))
        rw [hmap]
        exact hl.movedPerm
      · intro d hd
        show (Function.update s.rob s.robLast ⟨s.nextNum, q, bogus, 0, 0⟩ d).num ∉ s.moved
        rcases List.mem_cons.mp (hpend.mem_iff.mp hd) with rfl | hd
        · rw [Function.update_self]
          exact fun hin => lt_irrefl _ (hl.movedLt _ hin)
        · rw [hrob d (hl.unexecuted d (List.mem_append_left _ hd)).1]
          exact hl.fresh d hd

/-- Retiring an entry keeps the account. -/
theorem Accounted.retire {k : SchedKnobs} {s s' : OooSched} (h : Accounted k s)
    (hs : s.retire k = some s') : Accounted k s' := by
  obtain ⟨len, cnt, hl, hroom⟩ := h
  unfold OooSched.retire at hs
  split at hs
  · simp at hs
  · next hguard =>
      obtain rfl := Option.some.inj hs
      rw [not_or] at hguard
      obtain ⟨cnt, rfl⟩ : ∃ c, cnt = c + 1 := by
        refine Nat.exists_eq_succ_of_ne_zero fun hzero => hguard.1 ?_
        have := hl.robCount
        omega
      have hwindow : window (robMax k) s.robFirst (cnt + 1) =
          s.robFirst :: window (robMax k) ((s.robFirst + 1) % robMax k) cnt := by
        rw [window_succ, hl.robFirst]
      have hnums := hl.nums
      rw [hwindow, List.map_cons] at hnums
      refine ⟨len, cnt, ?_, hroom⟩
      refine
        { hl with
          robCount := ?_
          robFirst := Nat.mod_mod _ _
          robLast := ?_
          unexecuted := ?_
          nums := (List.nodup_cons.mp hnums).2
          numLt := fun d hd => hl.numLt d (hwindow ▸ List.mem_cons_of_mem _ hd) }
      · have := hl.robCount
        show cnt + (s.robFree + 1) = _
        omega
      · show s.robLast = ((s.robFirst + 1) % robMax k + cnt) % robMax k
        rw [hl.robLast, Nat.mod_add_mod]
        congr 1
        omega
      · intro d hd
        obtain ⟨hin, hzero⟩ := hl.unexecuted d hd
        rw [hwindow] at hin
        rcases List.mem_cons.mp hin with rfl | hin
        · exact absurd hzero hguard.2
        · exact ⟨hin, hzero⟩

/-! ## Runs -/

/-- Each step keeps the account. -/
theorem Accounted.step {k : SchedKnobs} {s s' : OooSched} {a : Act} (h : Accounted k s)
    (hs : s.step k a = some s') : Accounted k s' := by
  cases a with
  | allocate q bogus => exact h.allocate hs
  | runACycle exec ready =>
      obtain ⟨s₁, hs₁, h₁⟩ := h.runACycle exec ready
      exact Option.some.inj (hs₁.symm.trans hs) ▸ h₁
  | advance q ready => exact Option.some.inj hs ▸ h.advanceLoop q ready _
  | complete entry cycle =>
      obtain rfl := Option.some.inj hs
      obtain ⟨len, cnt, hl, hroom⟩ := h
      exact ⟨len, cnt, hl.setUop rfl rfl fun _ => rfl, hroom⟩
  | retire => exact h.retire hs
  | tick =>
      obtain rfl := Option.some.inj hs
      obtain ⟨len, cnt, hl, hroom⟩ := h
      exact ⟨len, cnt, { hl with }, hroom⟩

/-- Every run keeps the account. -/
theorem Accounted.run {k : SchedKnobs} {acts : List Act} {s : OooSched}
    (hrun : (OooSched.new k).run k acts = some s) : Accounted k s := by
  have hnew : Accounted k (OooSched.new k) :=
    ⟨0, 0, Lists.new k, fun _ => (by decide : 0 + 1 < maxSchedSize)⟩
  exact Ensures.foldlM (f := OooSched.step k) acts (OooSched.new k) hnew
    (fun y hy a _ y' hs => hy.step hs) s hrun

/-! ## The accounting of the list -/

/-- The entries of the occupied slots. -/
def occupied (s : OooSched) : List ℕ := (List.range maxSchedSize).filterMap s.scheduleList

/-- A slot lies in the circular range from `first` up to but not including `last`. -/
def InCircularRange (first last i : ℕ) : Prop :=
  if first ≤ last then first ≤ i ∧ i < last else first ≤ i ∨ i < last

/-- What the scheduler's counters, its list and its history say of each other. -/
structure ListAccounting (k : SchedKnobs) (s : OooSched) : Prop where
  /-- the counter counts the occupied slots -/
  total : s.numInSched = (occupied s).length
  /-- the counters of the queues add up -/
  queues : s.numInSched =
    s.numPerSched .gen + s.numPerSched .mem + s.numPerSched .fp + s.numPerSched .simd
  /-- occupied slots lie between head and end -/
  inRange : ∀ i < maxSchedSize, s.scheduleList i ≠ none → InCircularRange s.first s.last i
  /-- no occupied slot was ever written -/
  intact : s.overwritten = false
  /-- every uop that was moved in has executed once, or still waits in one slot -/
  once : s.moved.Nodup ∧
    s.moved.Perm (s.executed ++ (occupied s).map fun e => (s.rob e).num)
  /-- the assertions of a cycle hold -/
  asserts : ∀ exec ready, (s.runACycle k exec ready).isSome
  /-- an empty scheduler has room -/
  room : s.numInSched = 0 → (s.last + 1) % maxSchedSize ≠ s.first

/-- The occupied slots of the list are those of its window. -/
theorem Lists.occupied_perm {k : SchedKnobs} {s : OooSched} {len cnt : ℕ} (h : Lists k s len cnt) :
    (waiting s len).Perm (occupied s) := by
  have hfilter : ∀ l : List ℕ, l.filterMap s.scheduleList =
      (l.filter fun i => (s.scheduleList i).isSome).filterMap s.scheduleList := by
    intro l
    rw [List.filterMap_filter]
    refine List.filterMap_congr fun i _ => ?_
    cases s.scheduleList i <;> rfl
  unfold waiting occupied
  rw [hfilter (window _ _ _), hfilter (List.range _)]
  refine List.Perm.filterMap _ ?_
  rw [List.perm_ext_iff_of_nodup ((nodup_window h.len_lt.le).filter _) (List.nodup_range.filter _)]
  intro i
  simp only [List.mem_filter, List.mem_range, and_congr_left_iff]
  intro hi
  have hmem := h.inWindow i (Option.isSome_iff_ne_none.mp hi)
  exact ⟨fun _ => lt_of_mem_window maxSchedSize_pos hmem, fun _ => hmem⟩

/-- A place in the window lies in the circular range that it spans. -/
theorem inCircularRange_of_mem_window {first len i : ℕ} (hfirst : first < maxSchedSize)
    (hlen : len < maxSchedSize) (hi : i ∈ window maxSchedSize first len) :
    InCircularRange first ((first + len) % maxSchedSize) i := by
  obtain ⟨j, hj, rfl⟩ := mem_window.mp hi
  unfold InCircularRange
  by_cases hwrap : first + len < maxSchedSize
  · rw [Nat.mod_eq_of_lt hwrap, Nat.mod_eq_of_lt (by omega)]
    simp
    omega
  · have hend : (first + len) % maxSchedSize = first + len - maxSchedSize := by
      rw [Nat.mod_eq_sub_mod (by omega), Nat.mod_eq_of_lt (by omega)]
    rw [hend, if_neg (by omega)]
    by_cases hjw : first + j < maxSchedSize
    · rw [Nat.mod_eq_of_lt hjw]
      omega
    · rw [Nat.mod_eq_sub_mod (by omega), Nat.mod_eq_of_lt (by omega)]
      omega

/-- The four queue types account for every entry. -/
theorem length_eq_countP_queues (f : ℕ → AllocQ) (l : List ℕ) :
    l.length = l.countP (fun e => decide (f e = .gen)) + l.countP (fun e => decide (f e = .mem)) +
      l.countP (fun e => decide (f e = .fp)) + l.countP (fun e => decide (f e = .simd)) := by
  induction l with
  | nil => rfl
  | cons e l ih =>
      simp only [List.length_cons, List.countP_cons, ih]
      cases f e with
      | gen => simp; omega
      | mem => simp; omega
      | fp => simp; omega
      | simd => simp; omega

/-- In every state of every run, whatever executes and in whatever order the actions come, the
accounts of the schedule list are right. -/
theorem schedule_list_accounting {k : SchedKnobs} {acts : List Act} {s : OooSched}
    (hrun : (OooSched.new k).run k acts = some s) : ListAccounting k s := by
  have hacc := Accounted.run hrun
  obtain ⟨len, cnt, h, hroom⟩ := Accounted.run hrun
  refine ⟨?_, ?_, ?_, h.intact, ⟨h.movedNodup, ?_⟩, ?_, ?_⟩
  · rw [h.total, h.occupied_perm.length_eq]
  · rw [h.total, h.perQueue, h.perQueue, h.perQueue, h.perQueue]
    exact length_eq_countP_queues (fun e => (s.rob e).allocqNum) _
  · intro i _ hi
    rw [h.last]
    exact inCircularRange_of_mem_window h.first_lt h.len_lt (h.inWindow i hi)
  · exact h.movedPerm.trans (List.Perm.append_left _ (h.occupied_perm.map _))
  · intro exec ready
    obtain ⟨s', hs', -⟩ := hacc.runACycle exec ready
    rw [hs']
    rfl
  · intro hzero hfull
    rw [h.last] at hfull
    exact absurd ((full_iff h.first_lt h.len_lt).mp hfull) (hroom hzero).ne

/-- A uop is allocated, moved into the list and executed; the list has wrapped its head past
its slot. -/
theorem schedule_list_accounting_one_uop :
    ∃ s, (OooSched.new ⟨4, fun _ => 2, fun _ => 2, true, 1⟩).run
        ⟨4, fun _ => 2, fun _ => 2, true, 1⟩
        [.allocate .gen false, .advance .gen 1, .tick,
          .runACycle (fun _ => some (some 1)) (fun _ => 0)] = some s ∧
      ListAccounting ⟨4, fun _ => 2, fun _ => 2, true, 1⟩ s ∧ s.executed = [0] := by
  obtain ⟨s, hrun, hexec⟩ :
      ∃ s, (OooSched.new ⟨4, fun _ => 2, fun _ => 2, true, 1⟩).run
          ⟨4, fun _ => 2, fun _ => 2, true, 1⟩
          [.allocate .gen false, .advance .gen 1, .tick,
            .runACycle (fun _ => some (some 1)) (fun _ => 0)] = some s ∧ s.executed = [0] :=
    ⟨_, rfl, rfl⟩
  exact ⟨s, hrun, schedule_list_accounting hrun, hexec⟩

end OooSched

end MacSim.Analysis
