import MacSim.Analysis.DramService
import MacSim.Model.DramSimple

/-!
# Write-backs at the DRAM controllers

A write-back that reaches a `dram_ctrl_c` is freed when its transfer is complete and never
becomes a message.  `dram_simple_ctrl_c` does not look at the type of a request: whatever it
receives is in its output buffer until it is sent, as a fill, to the last-level cache.
-/

set_option autoImplicit false

namespace MacSim.Analysis.Dram

open MacSim.Model

variable {latency : ℕ} {s s' : DramSimple} {r : ℕ}

/-! ## The simple controller keeps or sends every request -/

/-- A received request is in the output buffer or was sent. -/
def Bounced (s : DramSimple) : Prop :=
  ∀ r ∈ s.received, r ∈ s.outputBuffer ∨ r ∈ s.sent.map (·.req)

/-- The loop of `send` only adds messages, and every request that it is to remove has one. -/
theorem simple_sendScan_spec (accepts : ℕ → Bool) (rest tempList : List ℕ) (s : DramSimple)
    (htemp : ∀ r ∈ tempList, r ∈ s.sent.map (·.req)) :
    let t := DramSimple.sendScan accepts rest tempList s
    t.2.outputBuffer = s.outputBuffer ∧ t.2.received = s.received ∧
    s.sent.map (·.req) ⊆ t.2.sent.map (·.req) ∧
    ∀ r ∈ t.1, r ∈ t.2.sent.map (·.req) := by
  induction rest generalizing tempList s with
  | nil => exact ⟨rfl, rfl, List.Subset.refl _, htemp⟩
  | cons r rest ih =>
      unfold DramSimple.sendScan
      by_cases hready : s.cycle < (s.reqs r).rdyCycle
      · rw [if_pos hready]
        exact ⟨rfl, rfl, List.Subset.refl _, htemp⟩
      · rw [if_neg hready]
        cases haccepts : accepts r with
        | false => exact ⟨rfl, rfl, List.Subset.refl _, htemp⟩
        | true =>
            dsimp only
            set s₁ := (s.modifyReq r fun req => { req with msgType := .fill }).sendReq r with hs₁
            have hsent : s₁.sent.map (·.req) = s.sent.map (·.req) ++ [r] := by
              rw [hs₁]
              simp [DramSimple.sendReq, DramSimple.modifyReq]
            have htemp₁ : ∀ i ∈ tempList ++ [r], i ∈ s₁.sent.map (·.req) := by
              intro i hi
              rw [hsent]
              exact (List.mem_append.mp hi).elim (fun hi => List.mem_append_left _ (htemp i hi))
                (fun hi => List.mem_append_right _ hi)
            obtain ⟨hout, hrec, hsub, hmem⟩ := ih (tempList ++ [r]) s₁ htemp₁
            refine ⟨hout, hrec, fun i hi => hsub ?_, hmem⟩
            rw [hsent]
            exact List.mem_append_left _ hi

/-- Sending keeps every write-back bounced. -/
theorem bounced_send (accepts : ℕ → Bool) (h : Bounced s) : Bounced (s.send accepts) := by
  obtain ⟨hout, hrec, hsub, hmem⟩ := simple_sendScan_spec accepts s.outputBuffer [] s (by simp)
  intro r hr
  have hr : r ∈ s.received := hrec ▸ hr
  show r ∈ List.filter _ _ ∨ _
  by_cases htemp : r ∈ (DramSimple.sendScan accepts s.outputBuffer [] s).1
  · exact .inr (hmem r htemp)
  · rcases h r hr with hr | hr
    · refine .inl (List.mem_filter.mpr ⟨?_, by simpa using htemp⟩)
      rw [hout]
      exact hr
    · exact .inr (hsub hr)

/-- Receiving keeps every write-back bounced. -/
theorem bounced_receive (h : Bounced s) : Bounced (s.receive latency) := by
  unfold DramSimple.receive
  cases hin : s.incoming with
  | nil => exact h
  | cons r rest =>
      intro i hi
      rcases List.mem_append.mp hi with hi | hi
      · exact (h i hi).imp_left (List.mem_append_left _)
      · exact .inl (List.mem_append_right _ hi)

/-- Each action keeps every write-back bounced. -/
theorem bounced_step {a : SimpleAction} (h : Bounced s) (hs : s.step latency a = some s') :
    Bounced s' := by
  cases a with
  | arrive req =>
      cases hs
      exact h
  | adjustReq r req =>
      simp only [DramSimple.step] at hs
      split at hs
      · cases hs
        exact h
      · cases hs
  | runACycle pllLock accepts =>
      cases hs
      cases pllLock with
      | true => exact h
      | false => exact bounced_receive (bounced_send accepts h)

/-- In every reachable state every write-back is bounced. -/
theorem reachable_bounced (h : s.Reachable latency) : Bounced s := by
  induction h with
  | new reqs => exact fun r hr => (nomatch hr)
  | step a _ hs ih => exact bounced_step ih hs

/-! ## The result -/

/-- A write-back that a `dram_ctrl_c` accepted is in a bank until it is freed, and no message
is made for it. -/
theorem writeback_retired {k : DramKnobs} {s : DramCtrl} (h : s.Reachable k)
    (hr : r ∈ s.accepted) (hwb : (s.reqs r).type = .wb) :
    (inBanks k s).count r + s.retired.count r = 1 ∧ r ∉ queued s ∧
      r ∉ s.flushed.map (·.1) := by
  obtain ⟨hA, hO⟩ := reachable_served h
  have hqueued : r ∉ queued s := by
    intro hq
    obtain ⟨c, hc, rfl⟩ := List.mem_map.mp (hO.done.mem_iff.mpr hq)
    exact hO.data c hc hwb
  have hflushed : r ∉ s.flushed.map (·.1) := by
    intro hf
    obtain ⟨p, hp, rfl⟩ := List.mem_map.mp hf
    exact (hO.prefetch p hp).2 hwb
  refine ⟨?_, hqueued, hflushed⟩
  have hcount := hA.count_accepted hr
  simp only [queued, List.mem_append, not_or] at hqueued
  rw [holdings, departures, List.count_eq_zero_of_not_mem hqueued.2,
    List.count_eq_zero_of_not_mem hqueued.1.2, List.count_eq_zero_of_not_mem hflushed,
    List.count_eq_zero_of_not_mem hqueued.1.1] at hcount
  omega

/-- Under both policies of `dram_ctrl_c`, in every run, an accepted write-back is in its bank
or was freed, and it is not sent nor in line to be sent.  For `dram_simple_ctrl_c`, no
write-back is sent or in line to be sent if and only if none was received. -/
theorem writebacks_do_not_bounce (k : DramKnobs) (latency : ℕ) :
    (∀ s : DramCtrl, s.Reachable k →
      ∀ r ∈ s.accepted, (s.reqs r).type = .wb →
        (inBanks k s).count r + s.retired.count r = 1 ∧
        r ∉ s.sent.map (·.req) ∧ r ∉ s.outputBuffer ∧ r ∉ s.tmpOutputBuffer) ∧
    (∀ s : DramSimple, s.Reachable latency →
      ((∀ r ∈ s.received, (s.reqs r).type = .wb →
          r ∉ s.sent.map (·.req) ∧ r ∉ s.outputBuffer) ↔
        ∀ r ∈ s.received, (s.reqs r).type ≠ .wb)) := by
  constructor
  · intro s h r hr hwb
    obtain ⟨hcount, hqueued, -⟩ := writeback_retired h hr hwb
    simp only [queued, List.mem_append, not_or] at hqueued
    exact ⟨hcount, hqueued.1.1, hqueued.1.2, hqueued.2⟩
  · intro s h
    constructor
    · intro hgone r hr hwb
      obtain ⟨hsent, hout⟩ := hgone r hr hwb
      rcases reachable_bounced h r hr with hr | hr
      · exact hout hr
      · exact hsent hr
    · intro hnone r hr hwb
      exact absurd hwb (hnone r hr)

/-- A run of the bank controller that frees a write-back, and a run of the simple controller
without one. -/
theorem writebacks_do_not_bounce_small :
    (∃ s : DramCtrl, s.Reachable smallDram ∧ s.retired = [1] ∧ 1 ∉ s.sent.map (·.req)) ∧
    ∃ s : DramSimple, s.Reachable 0 ∧ s.received = [0] ∧
      ∀ r ∈ s.received, (s.reqs r).type ≠ .wb := by
  constructor
  · obtain ⟨s, hs, hx⟩ := DramCtrl.reachable_run smallDram
      ([.arrive (lineReq 0 .dfetch false), .arrive (lineReq 4096 .wb false)] ++ dramCycles 30)
      (fun _ => lineReq 0 .dfetch false)
      (fun s => (s.retired, s.accepted, (s.reqs 1).type)) ([1], [0, 1], .wb) (by decide +kernel)
    simp only [Prod.mk.injEq] at hx
    obtain ⟨hretired, hacc, hwb⟩ := hx
    refine ⟨s, hs, hretired, ?_⟩
    exact ((writebacks_do_not_bounce smallDram 0).1 s hs 1 (by simp [hacc]) hwb).2.1
  · have harrive : ((DramSimple.new fun _ => lineReq 0 .dfetch false).arrive
        (lineReq 64 .dfetch false)).Reachable 0 := .step (.arrive _) (.new _) rfl
    have hs := harrive.step (.runACycle false fun _ => true) rfl
    refine ⟨_, hs, rfl, ((writebacks_do_not_bounce smallDram 0).2 _ hs).mp ?_⟩
    intro r hr hwb
    obtain rfl := List.mem_singleton.mp hr
    exact (nomatch hwb)

/-- A write-back is received by `dram_simple_ctrl_c` and sent to the last-level cache as a
fill in the next cycle. -/
theorem simple_writeback_bounces : ∃ s : DramSimple, s.Reachable 0 ∧
    (s.reqs 0).type = .wb ∧ s.received = [0] ∧ s.outputBuffer = [] ∧
    s.sent = [⟨0, .fill, 0, 1⟩] := by
  have harrive : (((DramSimple.new fun _ => lineReq 0 .dfetch false).arrive
      (lineReq 64 .wb false))).Reachable 0 := .step (.arrive _) (.new _) rfl
  have hfirst := harrive.step (.runACycle false fun _ => true) rfl
  have hsecond := hfirst.step (.runACycle false fun _ => true) rfl
  exact ⟨_, hsecond, rfl, rfl, rfl, rfl⟩

end MacSim.Analysis.Dram
