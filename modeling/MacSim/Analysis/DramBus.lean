import MacSim.Analysis.DramMoves

/-!
# The data bus of a DRAM channel

A request that does not fill the rest of a bus cycle leaves it to the next one, and a larger
request leaves the rest of its last cycle.  Counted in bytes, an acquisition moves the position
of the bus, cycle times width less what is left of the cycle, by the size of the request.
-/

set_option autoImplicit false

namespace MacSim.Analysis.Dram

open MacSim.Model

variable {k : DramKnobs} {s s' t : DramCtrl} {ii : ℕ}

/-! ## Acquisitions -/

/-- A call of `acquire_data_bus`: its cycle, the size and the cycle that it returns. -/
structure Acquisition where
  cycle : ℕ
  size : ℕ
  ready : ℕ

/-- The bus of channel `ii` is the same, at the same or a later cycle. -/
structure SameBus (ii : ℕ) (s s' : DramCtrl) : Prop where
  byteAvail : s'.byteAvail ii = s.byteAvail ii
  dbusReady : s'.dbusReady ii = s.dbusReady ii
  cycle : s.cycle ≤ s'.cycle

/-- A run in which the bus of channel `ii` is acquired when it is available, with the
acquisitions in order.  What else happens leaves the bus alone. -/
inductive BusRun (k : DramKnobs) (ii : ℕ) : DramCtrl → List Acquisition → DramCtrl → Prop
  | refl (s : DramCtrl) : BusRun k ii s [] s
  | other {s t u : DramCtrl} {log : List Acquisition} (h : BusRun k ii s log t)
      (hsame : SameBus ii t u) : BusRun k ii s log u
  | acquire {s t : DramCtrl} {log : List Acquisition} (h : BusRun k ii s log t)
      (havail : t.availDataBus ii = true) (size : ℕ) :
      BusRun k ii s (log ++ [⟨t.cycle, size, (t.acquireDataBus k ii size).2⟩])
        (t.acquireDataBus k ii size).1

/-- The bytes of some acquisitions. -/
def bytes (log : List Acquisition) : ℕ := (log.map Acquisition.size).sum

/-- Some bytes of a bus cycle are left, and no more than the bus is wide. -/
def InWidth (k : DramKnobs) (ii : ℕ) (s : DramCtrl) : Prop :=
  1 ≤ s.byteAvail ii ∧ s.byteAvail ii ≤ k.busWidth

/-- Taking the data bus leaves the clock alone. -/
theorem acquire_cycle (s : DramCtrl) (ii size : ℕ) :
    (s.acquireDataBus k ii size).1.cycle = s.cycle := by
  unfold DramCtrl.acquireDataBus
  split <;> rfl

/-- Taking the data bus books it until the time that is returned. -/
theorem acquire_dbusReady (s : DramCtrl) (ii size : ℕ) :
    (s.acquireDataBus k ii size).1.dbusReady ii = (s.acquireDataBus k ii size).2 := by
  unfold DramCtrl.acquireDataBus
  split <;> exact Function.update_self ..

/-- An acquisition moves the bus by the size of the request. -/
theorem acquire_position (hwidth : 1 ≤ k.busWidth) (h : InWidth k ii s) (size : ℕ) :
    InWidth k ii (s.acquireDataBus k ii size).1 ∧ s.cycle ≤ (s.acquireDataBus k ii size).2 ∧
      size + s.cycle * k.busWidth + (s.acquireDataBus k ii size).1.byteAvail ii =
        (s.acquireDataBus k ii size).2 * k.busWidth + s.byteAvail ii := by
  obtain ⟨hpos, hle⟩ := h
  unfold DramCtrl.acquireDataBus InWidth
  split
  case isTrue hsmall =>
    simp only [Function.update_self]
    omega
  case isFalse hlarge =>
    have hmod := Nat.mod_lt (size - s.byteAvail ii) hwidth
    have hdiv := Nat.div_add_mod (size - s.byteAvail ii) k.busWidth
    simp only [Function.update_self]
    refine ⟨⟨by omega, Nat.sub_le _ _⟩, (Nat.le_add_right _ _).trans (Nat.le_succ _), ?_⟩
    rw [Nat.add_mul, Nat.add_mul, one_mul, Nat.mul_comm (_ / _) k.busWidth]
    omega

/-! ## Runs -/

/-- What the acquisitions so far say about the bus. -/
structure BusBooks (k : DramKnobs) (ii : ℕ) (log : List Acquisition) (s : DramCtrl) : Prop where
  width : InWidth k ii s
  ready : ∀ a ∈ log, a.cycle ≤ a.ready
  past : ∀ a ∈ log, a.cycle ≤ s.cycle
  since : ∀ pre a mid, log = pre ++ a :: mid →
    bytes (a :: mid) + a.cycle * k.busWidth + s.byteAvail ii ≤
      s.dbusReady ii * k.busWidth + k.busWidth
  between : ∀ pre a mid b post, log = pre ++ a :: (mid ++ b :: post) →
    bytes (a :: mid) < (b.cycle - a.cycle + 1) * k.busWidth

/-- The bytes of two logs in sequence add up. -/
theorem bytes_append (log log' : List Acquisition) :
    bytes (log ++ log') = bytes log + bytes log' := by
  unfold bytes
  rw [List.map_append, List.sum_append]

/-- A list that ends in `y`, split at one of its elements. -/
theorem snoc_eq_split {α : Type} {l pre mid : List α} {y a : α} (h : l ++ [y] = pre ++ a :: mid) :
    (l = pre ∧ y = a ∧ mid = []) ∨ ∃ mid', mid = mid' ++ [y] ∧ l = pre ++ a :: mid' := by
  rcases List.eq_nil_or_concat mid with rfl | ⟨mid', z, rfl⟩
  · obtain ⟨hl, hy⟩ := List.append_inj' h rfl
    exact Or.inl ⟨hl, (List.cons.inj hy).1, rfl⟩
  · have hassoc : l ++ [y] = (pre ++ a :: mid') ++ [z] := by
      rw [h, List.append_assoc, List.cons_append, List.concat_eq_append]
    obtain ⟨hl, hy⟩ := List.append_inj' hassoc rfl
    obtain rfl := (List.cons.inj hy).1
    exact Or.inr ⟨mid', List.concat_eq_append .., hl⟩

/-- One acquisition of a free bus keeps the bus's books. -/
theorem busBooks_acquire (hwidth : 1 ≤ k.busWidth) {log : List Acquisition}
    (h : BusBooks k ii log s) (havail : s.availDataBus ii = true) (size : ℕ) :
    BusBooks k ii (log ++ [⟨s.cycle, size, (s.acquireDataBus k ii size).2⟩])
      (s.acquireDataBus k ii size).1 := by
  obtain ⟨hin, hready, hposition⟩ := acquire_position hwidth h.width size
  have hbus : s.dbusReady ii * k.busWidth ≤ s.cycle * k.busWidth :=
    Nat.mul_le_mul_right _ (of_decide_eq_true havail)
  refine ⟨hin, ?_, ?_, ?_, ?_⟩
  · intro a ha
    rcases List.mem_append.mp ha with hold | hnew
    · exact h.ready a hold
    · rw [List.mem_singleton.mp hnew]
      exact hready
  · intro a ha
    rw [acquire_cycle]
    rcases List.mem_append.mp ha with hold | hnew
    · exact h.past a hold
    · rw [List.mem_singleton.mp hnew]
  · intro pre a mid hlog
    rw [acquire_dbusReady]
    rcases snoc_eq_split hlog with ⟨-, rfl, rfl⟩ | ⟨mid', rfl, hlog'⟩
    · have hle := h.width.2
      have hone : bytes [⟨s.cycle, size, (s.acquireDataBus k ii size).2⟩] = size := rfl
      rw [hone]
      dsimp only
      omega
    · have hsince := h.since pre a mid' hlog'
      have hone : bytes [⟨s.cycle, size, (s.acquireDataBus k ii size).2⟩] = size := rfl
      rw [← List.cons_append, bytes_append, hone]
      omega
  · intro pre a mid b post hlog
    rw [← List.cons_append, ← List.append_assoc] at hlog
    rcases snoc_eq_split hlog with ⟨hlog', rfl, -⟩ | ⟨post', -, hlog'⟩
    · have hsince := h.since pre a mid hlog'
      have hpast := h.past a (by rw [hlog']; exact List.mem_append_right _ (List.mem_cons_self ..))
      have hpos := h.width.1
      have hspan : (s.cycle - a.cycle + 1) * k.busWidth + a.cycle * k.busWidth =
          s.cycle * k.busWidth + k.busWidth := by
        rw [← Nat.add_mul, ← Nat.succ_mul]
        congr 1
        omega
      dsimp only
      omega
    · rw [List.append_assoc, List.cons_append] at hlog'
      exact h.between pre a mid b post' hlog'

/-- Any run of acquisitions keeps the bus's books. -/
theorem busBooks_run (hwidth : 1 ≤ k.busWidth) {log : List Acquisition} (hs : InWidth k ii s)
    (h : BusRun k ii s log t) : BusBooks k ii log t := by
  induction h with
  | refl =>
    refine ⟨hs, ?_, ?_, ?_, ?_⟩
    · exact fun _ ha => absurd ha List.not_mem_nil
    · exact fun _ ha => absurd ha List.not_mem_nil
    · intro pre a mid hlog
      simp at hlog
    · intro pre a mid b post hlog
      simp at hlog
  | other _ hsame ih =>
    refine ⟨?_, ih.ready, fun a ha => (ih.past a ha).trans hsame.cycle, ?_, ih.between⟩
    · unfold InWidth
      rw [hsame.byteAvail]
      exact ih.width
    · rw [hsame.byteAvail, hsame.dbusReady]
      exact ih.since
  | acquire _ havail size ih => exact busBooks_acquire hwidth ih havail size

/-! ## The controller -/

/-- A state that differs outside the banks only has the same bus. -/
theorem sameBus_of_sameBanks (h : SameBanks s s') : SameBus ii s s' :=
  ⟨congrFun h.byteAvail ii, congrFun h.dbusReady ii, h.cycle.ge⟩

/-- A move is an acquisition of the bus, or the bus stays the same. -/
theorem busRun_move (hm : DramMove k s s') : ∃ log, BusRun k ii s log s' := by
  have hother : SameBus ii s s' → ∃ log, BusRun k ii s log s' :=
    fun hsame => ⟨[], .other (.refl s) hsame⟩
  cases hm with
  | count => exact hother ⟨rfl, rfl, le_rfl⟩
  | tick => exact hother ⟨rfl, rfl, Nat.le_succ _⟩
  | arrive => exact hother ⟨rfl, rfl, le_rfl⟩
  | adjust r req => exact hother (sameBus_of_sameBanks (sameBanks_adjustReq s r req))
  | accept => exact hother ⟨rfl, rfl, le_rfl⟩
  | flush => exact hother ⟨rfl, rfl, le_rfl⟩
  | merge b e finish r =>
    have hretire : SameBus ii s (s.retire k finish r) :=
      sameBus_of_sameBanks (sameBanks_retire s finish r)
    exact hother ⟨hretire.byteAvail, hretire.dbusReady, hretire.cycle⟩
  | finish b e finish r =>
    have hretire : SameBus ii s (s.retire k finish r) :=
      sameBus_of_sameBanks (sameBanks_retire s finish r)
    exact hother ⟨hretire.byteAvail, hretire.dbusReady, hretire.cycle⟩
  | select => exact hother ⟨rfl, rfl, le_rfl⟩
  | wake => exact hother ⟨rfl, rfl, le_rfl⟩
  | mark => exact hother ⟨rfl, rfl, le_rfl⟩
  | command b e =>
    refine hother ?_
    unfold DramCtrl.issueCommand
    split
    · exact ⟨rfl, rfl, le_rfl⟩
    · split <;> exact ⟨rfl, rfl, le_rfl⟩
  | transfer jj b e he hst hr hbus =>
    have hafter : SameBus ii (s.acquireDataBus k jj (s.entry e).size).1 (s.transfer k jj b e) :=
      ⟨rfl, rfl, le_rfl⟩
    by_cases hjj : jj = ii
    · subst hjj
      exact ⟨_, .other (.acquire (.refl s) hbus _) hafter⟩
    · refine hother ⟨hafter.byteAvail.trans ?_, hafter.dbusReady.trans ?_, ?_⟩
      · unfold DramCtrl.acquireDataBus
        split <;> exact Function.update_of_ne (Ne.symm hjj) ..
      · unfold DramCtrl.acquireDataBus
        split <;> exact Function.update_of_ne (Ne.symm hjj) ..
      · exact (acquire_cycle s jj _).ge.trans hafter.cycle
  | delay => exact hother ⟨rfl, rfl, le_rfl⟩
  | send accepts => exact hother (sameBus_of_sameBanks (sameBanks_send s accepts))

/-- Two runs of acquisitions in sequence are one run. -/
theorem BusRun.append {u : DramCtrl} {log log' : List Acquisition} (h : BusRun k ii s log t)
    (h' : BusRun k ii t log' u) : BusRun k ii s (log ++ log') u := by
  induction h' with
  | refl => rwa [List.append_nil]
  | other _ hsame ih => exact .other ih hsame
  | acquire _ havail size ih =>
    rw [← List.append_assoc]
    exact .acquire ih havail size

/-- The runs of a controller are such runs, for every channel. -/
theorem busRun_of_reachable (h : s.Reachable k) (ii : ℕ) :
    ∃ completed starvation reqs log,
      BusRun k ii (DramCtrl.new k completed starvation reqs) log s := by
  have hall := reachable_induction (k := k) (I := fun s => ∃ completed starvation reqs log,
    BusRun k ii (DramCtrl.new k completed starvation reqs) log s) ?_ ?_ h
  · exact hall.2
  · exact fun completed starvation reqs => ⟨completed, starvation, reqs, [], .refl _⟩
  · rintro s s' - ⟨completed, starvation, reqs, log, hrun⟩ hm
    obtain ⟨log', hrun'⟩ := busRun_move hm
    exact ⟨completed, starvation, reqs, log ++ log', hrun.append hrun'⟩

/-- In every run the bus has some bytes of a cycle left and no more than its width, no
acquisition is over before its cycle, and what is acquired from one acquisition until another
fits in the cycles from the one to the other. -/
theorem data_bus_not_oversubscribed (k : DramKnobs) (hwidth : 1 ≤ k.busWidth) (ii : ℕ)
    (completed starvation : ℤ) (reqs : ℕ → DramReq) (log : List Acquisition) (s : DramCtrl)
    (h : BusRun k ii (DramCtrl.new k completed starvation reqs) log s) :
    (1 ≤ s.byteAvail ii ∧ s.byteAvail ii ≤ k.busWidth) ∧ (∀ a ∈ log, a.cycle ≤ a.ready) ∧
      ∀ pre a mid b post, log = pre ++ a :: (mid ++ b :: post) →
        bytes (a :: mid) < (b.cycle - a.cycle + 1) * k.busWidth := by
  have hbooks := busBooks_run hwidth ⟨hwidth, le_rfl⟩ h
  exact ⟨hbooks.width, hbooks.ready, hbooks.between⟩

/-- Two requests of 24 bytes share a cycle of a bus of 64 bytes. -/
theorem data_bus_not_oversubscribed_shared : bytes [⟨0, 24, 0⟩] < (0 - 0 + 1) * 64 := by
  have hfirst : BusRun smallDram 0 _ _ _ :=
    .acquire (.refl (DramCtrl.new smallDram 0 0 fun _ => lineReq 0 .dfetch false)) rfl 24
  have hsecond := BusRun.acquire hfirst rfl 24
  exact (data_bus_not_oversubscribed smallDram (by decide) 0 0 0 _ _ _ hsecond).2.2
    [] ⟨0, 24, 0⟩ [] ⟨0, 24, 0⟩ [] rfl

end MacSim.Analysis.Dram
