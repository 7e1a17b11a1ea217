import MacSim.Model.BranchFetch
import MacSim.Computation.Partial

/-!
# The stall behind a mispredicted branch

A mispredicted branch sets the recovery cycle of its thread to infinity, but the loop that
fetches a group goes on behind it: the variable is tested when the next group starts.  So the
stall begins with the branch only if the group ends with it.  When every group ends with its
first mispredicted branch, at most one misprediction of a thread is unresolved at any time, and
the one variable is enough.
-/

set_option autoImplicit false

namespace MacSim.Analysis

open MacSim.Model MacSim.Computation

namespace FrontEnd

open MacSim.Model.FrontEnd

variable {σ ι : Type}

/-- Nothing of a thread is pushed behind a mispredicted branch before the branch has executed
and the recovery cycle it set has come. -/
def Stalls (s : FrontEnd σ ι) : Prop :=
  s.log.Pairwise fun e f => e.tid = f.tid → e.mispredicted = true →
    ∃ c, e.resolved = some c ∧ c ≤ f.fetchCycle

/-- The number of uops that a call has room for. -/
def groupSize (k : FetchKnobs) (space : ℕ) (uops : List (UopPtr × BranchUop)) : ℕ :=
  min (min (max k.width 1) space) uops.length

/-- The uop at a position of a group would be mispredicted, if the fetch gets there. -/
def mispredictedAt (k : FetchKnobs) (d : BpDir σ ι) (tid : ℕ) :
    FrontEnd σ ι → List (UopPtr × BranchUop) → ℕ → Bool
  | _, [], _ => false
  | s, (p, u) :: _, 0 => u.cfType != .notCf && (s.predictBpu k d tid p u).2.mispredicted
  | s, (p, u) :: rest, n + 1 =>
      match s.fetchUop k d tid p u with
      | none => false
      | some s => mispredictedAt k d tid s rest n

/-- A group that starts has no mispredicted branch before its last uop. -/
def CleanGroup (k : FetchKnobs) (d : BpDir σ ι) (s : FrontEnd σ ι) : Act → Prop
  | .fetch tid space uops => s.stalled tid = false →
      ∀ n, n + 1 < groupSize k space uops → mispredictedAt k d tid s uops n = false
  | _ => True

/-- What the recovery cycles say of the branches that were fetched. -/
structure StallBooks (s : FrontEnd σ ι) : Prop where
  stalls : Stalls s
  past : ∀ e ∈ s.log, e.fetchCycle ≤ s.cycle
  unresolved : ∀ e ∈ s.log, e.mispredicted = true → e.resolved = none →
    s.recoveryCycle e.tid = ⊤
  resolved : ∀ e ∈ s.log, ∀ c, e.resolved = some c →
    c ≤ s.cycle ∨ (c : WithTop ℕ) ≤ s.recoveryCycle e.tid
  unexecuted : ∀ e ∈ s.log, e.executed = false → e.resolved = none
  cause : ∀ e ∈ s.log, e.resolved ≠ none → e.mispredicted = true
  isBranch : ∀ e ∈ s.log, e.mispredicted = true → e.trace.cfType ≠ .notCf

/-- A new front end has its stall in the books. -/
theorem StallBooks.new (bp : σ) (info : UopPtr → ι) : StallBooks (FrontEnd.new bp info) where
  stalls := List.Pairwise.nil
  past := fun _ h => (List.not_mem_nil h).elim
  unresolved := fun _ h => (List.not_mem_nil h).elim
  resolved := fun _ h => (List.not_mem_nil h).elim
  unexecuted := fun _ h => (List.not_mem_nil h).elim
  cause := fun _ h => (List.not_mem_nil h).elim
  isBranch := fun _ h => (List.not_mem_nil h).elim

/-! ## Fetch -/

/-- What fetching a uop does to the stall. -/
structure Pushed (s s' : FrontEnd σ ι) (tid : ℕ) (p : UopPtr) (u : BranchUop)
    (e : BranchEntry ι) : Prop where
  log : s'.log = s.log ++ [e]
  cycle : s'.cycle = s.cycle
  recovery : s'.recoveryCycle =
    if e.mispredicted then Function.update s.recoveryCycle tid ⊤ else s.recoveryCycle
  uop : e.uop = p
  tid : e.tid = tid
  trace : e.trace = u
  fetchCycle : e.fetchCycle = s.cycle
  fresh : e.resolved = none ∧ e.executed = false ∧ e.updated = none
  isBranch : e.mispredicted = true → u.cfType ≠ .notCf

/-- A fetched branch is pushed with the misprediction that the predictor reports. -/
theorem fetchUop_pushed {k : FetchKnobs} {d : BpDir σ ι} {s s' : FrontEnd σ ι} {tid : ℕ}
    {p : UopPtr} {u : BranchUop} (h : s.fetchUop k d tid p u = some s') :
    ∃ e, Pushed s s' tid p u e ∧
      e.mispredicted = (u.cfType != .notCf && (s.predictBpu k d tid p u).2.mispredicted) := by
  unfold fetchUop at h
  split at h
  · simp at h
  · split at h
    · next hcf =>
        obtain rfl := Option.some.inj h
        exact ⟨_, ⟨rfl, rfl, rfl, rfl, rfl, rfl, rfl, ⟨rfl, rfl, rfl⟩, by simp⟩, by simp [hcf]⟩
    · next hcf =>
        have hspec : ∀ r, s.predictBpu k d tid p u = r →
            r.1.log = s.log ∧ r.1.cycle = s.cycle ∧ r.1.recoveryCycle = s.recoveryCycle ∧
              r.2.uop = p ∧ r.2.tid = tid ∧ r.2.trace = u ∧ r.2.fetchCycle = s.cycle ∧
              r.2.resolved = none ∧ r.2.executed = false ∧ r.2.updated = none := by
          rintro _ rfl
          unfold predictBpu
          dsimp only
          split
          · exact ⟨rfl, rfl, rfl, rfl, rfl, rfl, rfl, rfl, rfl, rfl⟩
          · exact ⟨rfl, rfl, rfl, rfl, rfl, rfl, rfl, rfl, rfl, rfl⟩
        obtain ⟨hlog, hcycle, hrec, huop, htid, htrace, hfetch, hfresh⟩ := hspec _ rfl
        generalize s.predictBpu k d tid p u = r at h hlog hcycle hrec huop htid htrace hfetch hfresh
        obtain ⟨s₁, e⟩ := r
        dsimp only at h hlog hcycle hrec huop htid htrace hfetch hfresh
        refine ⟨e, ?_, by simp [hcf]⟩
        obtain rfl := Option.some.inj h
        refine ⟨?_, ?_, ?_, huop, htid, htrace, hfetch, hfresh, fun _ => hcf⟩
        · rw [← hlog]
          split
          · rfl
          · split <;> rfl
        · rw [← hcycle]
          split
          · rfl
          · split <;> rfl
        · rw [← hrec]
          split
          · rfl
          · split <;> rfl

/-- A uop that is pushed while its thread is not stalled. -/
theorem StallBooks.push {s s' : FrontEnd σ ι} {tid : ℕ} {p : UopPtr} {u : BranchUop}
    {e : BranchEntry ι} (h : StallBooks s) (hp : Pushed s s' tid p u e)
    (hfree : s.recoveryCycle tid ≤ (s.cycle : WithTop ℕ)) : StallBooks s' := by
  have hrec : ∀ t, s.recoveryCycle t ≤ s'.recoveryCycle t := by
    intro t
    rw [hp.recovery]
    split
    · by_cases ht : t = tid
      · subst ht
        simp
      · simp [ht]
    · exact le_rfl
  have hmem : ∀ f ∈ s'.log, f ∈ s.log ∨ f = e := by
    intro f hf
    rw [hp.log] at hf
    simpa using hf
  refine ⟨?_, ?_, ?_, ?_, ?_, ?_, ?_⟩
  · unfold Stalls
    rw [hp.log]
    refine List.pairwise_append.mpr ⟨h.stalls, List.pairwise_singleton _ _, ?_⟩
    intro b hb f hf htid hmis
    obtain rfl := List.mem_singleton.mp hf
    rw [hp.tid] at htid
    -- the thread is not stalled, so the branch is resolved
    cases hres : b.resolved with
    | none =>
        have htop := h.unresolved b hb hmis hres
        rw [htid] at htop
        rw [htop] at hfree
        exact absurd hfree (by simp)
    | some c =>
        refine ⟨c, rfl, ?_⟩
        rw [hp.fetchCycle]
        rcases h.resolved b hb c hres with hc | hc
        · exact hc
        · rw [htid] at hc
          exact_mod_cast hc.trans hfree
  · intro f hf
    rw [hp.cycle]
    rcases hmem f hf with hf | rfl
    · exact h.past f hf
    · exact hp.fetchCycle.le
  · intro f hf hmis hres
    rcases hmem f hf with hf | rfl
    · have htop := h.unresolved f hf hmis hres
      exact top_le_iff.mp (htop ▸ hrec f.tid)
    · rw [hp.recovery, if_pos hmis, hp.tid, Function.update_self]
  · intro f hf c hres
    rw [hp.cycle]
    rcases hmem f hf with hf | rfl
    · exact (h.resolved f hf c hres).imp_right fun hc => hc.trans (hrec f.tid)
    · rw [hp.fresh.1] at hres
      exact absurd hres (by simp)
  · intro f hf hex
    rcases hmem f hf with hf | rfl
    · exact h.unexecuted f hf hex
    · exact hp.fresh.1
  · intro f hf hres
    rcases hmem f hf with hf | rfl
    · exact h.cause f hf hres
    · exact absurd hp.fresh.1 hres
  · intro f hf hmis
    rcases hmem f hf with hf | rfl
    · exact h.isBranch f hf hmis
    · rw [hp.trace]
      exact hp.isBranch hmis

/-- The fetch loop, from a state in which the thread is not stalled. -/
theorem StallBooks.fetchLoop {k : FetchKnobs} {d : BpDir σ ι} {tid : ℕ}
    (uops : List (UopPtr × BranchUop)) {space fetched : ℕ} {s s' : FrontEnd σ ι}
    (h : StallBooks s) (hfree : s.recoveryCycle tid ≤ (s.cycle : WithTop ℕ))
    (hclean : ∀ n, n + 1 < min (min (max k.width 1 - fetched) space) uops.length →
      mispredictedAt k d tid s uops n = false)
    (hs : FrontEnd.fetchLoop k d tid space fetched uops s = some s') : StallBooks s' := by
  induction uops generalizing space fetched s with
  | nil =>
      cases space with
      | zero => exact Option.some.inj hs ▸ h
      | succ space => exact Option.some.inj hs ▸ h
  | cons pu rest ih =>
      obtain ⟨p, u⟩ := pu
      cases space with
      | zero => exact Option.some.inj hs ▸ h
      | succ space =>
          unfold FrontEnd.fetchLoop at hs
          obtain ⟨s₁, hs₁, hs⟩ := Option.bind_eq_some_iff.mp hs
          obtain ⟨e, hp, hmis⟩ := fetchUop_pushed hs₁
          have h₁ := h.push hp hfree
          split at hs
          · exact Option.some.inj hs ▸ h₁
          · next hwidth =>
              by_cases hmore : space ≠ 0 ∧ rest ≠ []
              · -- the group goes on, so the uop is not a mispredicted branch
                have hlen : 0 < rest.length := List.length_pos_iff.mpr hmore.2
                have hno : e.mispredicted = false := by
                  rw [hmis]
                  refine hclean 0 ?_
                  simp only [List.length_cons]
                  omega
                refine ih h₁ ?_ ?_ hs
                · rw [hp.recovery, hno, hp.cycle]
                  exact hfree
                · intro n hn
                  have hlater := hclean (n + 1) (by simp only [List.length_cons]; omega)
                  unfold mispredictedAt at hlater
                  rw [hs₁] at hlater
                  exact hlater
              · -- nothing more is fetched
                have hsame : s' = s₁ := by
                  rw [not_and_or, not_not, not_not] at hmore
                  rcases hmore with rfl | rfl
                  · exact (Option.some.inj hs).symm
                  · cases space with
                    | zero => exact (Option.some.inj hs).symm
                    | succ _ => exact (Option.some.inj hs).symm
                exact hsame ▸ h₁

/-! ## Execution and retirement -/

/-- What executing a uop does to the stall. -/
structure Resolved (k : FetchKnobs) (s s' : FrontEnd σ ι) (e e' : BranchEntry ι) : Prop where
  log : s'.log = s.log
  cycle : s'.cycle = s.cycle
  recovery : s'.recoveryCycle =
    if e.mispredicted then Function.update s.recoveryCycle e.tid
      ((s.cycle + 1 + k.extraRecoveryCycles : ℕ) : WithTop ℕ) else s.recoveryCycle
  tid : e'.tid = e.tid
  trace : e'.trace = e.trace
  mispredicted : e'.mispredicted = e.mispredicted
  fetchCycle : e'.fetchCycle = e.fetchCycle
  resolved : e'.resolved =
    if e.mispredicted then some (s.cycle + 1 + k.extraRecoveryCycles) else e.resolved

/-- An executed branch is resolved as its entry says. -/
theorem brExec_resolved (k : FetchKnobs) (d : BpDir σ ι) (s : FrontEnd σ ι) (e : BranchEntry ι) :
    Resolved k s (s.brExec k d e).1 e (s.brExec k d e).2 := by
  have hupdate : ∀ r, s.updateDir d e = r → r.1.log = s.log ∧ r.1.cycle = s.cycle ∧
      r.1.recoveryCycle = s.recoveryCycle ∧ r.2.tid = e.tid ∧ r.2.trace = e.trace ∧
      r.2.mispredicted = e.mispredicted ∧ r.2.fetchCycle = e.fetchCycle ∧
      r.2.resolved = e.resolved := by
    rintro _ rfl
    unfold updateDir
    split
    · exact ⟨rfl, rfl, rfl, rfl, rfl, rfl, rfl, rfl⟩
    · exact ⟨rfl, rfl, rfl, rfl, rfl, rfl, rfl, rfl⟩
  obtain ⟨hlog, hcycle, hrec, htid, htrace, hmis, hfetch, hres⟩ := hupdate _ rfl
  unfold brExec
  generalize s.updateDir d e = r at hlog hcycle hrec htid htrace hmis hfetch hres ⊢
  obtain ⟨s₁, e₁⟩ := r
  dsimp only at hlog hcycle hrec htid htrace hmis hfetch hres ⊢
  have hrecover : Resolved k s (s₁.recoverDir k d e₁).1 e (s₁.recoverDir k d e₁).2 := by
    unfold recoverDir
    split
    · next hm =>
        have hm' : e.mispredicted = true := hmis ▸ hm
        exact ⟨hlog, hcycle, by simp [hm', hrec, htid, hcycle], htid, htrace, hmis, hfetch,
          by simp [hm', hcycle]⟩
    · next hm =>
        have hm' : ¬ e.mispredicted = true := hmis ▸ hm
        exact ⟨hlog, hcycle, by simp [hm', hrec], htid, htrace, hmis, hfetch, by simp [hm', hres]⟩
  generalize s₁.recoverDir k d e₁ = r at hrecover ⊢
  obtain ⟨s₂, e₂⟩ := r
  dsimp only at hrecover ⊢
  unfold redirect
  split
  · exact ⟨hrecover.log, hrecover.cycle, hrecover.recovery, hrecover.tid, hrecover.trace,
      hrecover.mispredicted, hrecover.fetchCycle, hrecover.resolved⟩
  · exact hrecover

/-- What executing a uop does to the predictor and its data. -/
structure Learned (d : BpDir σ ι) (s s' : FrontEnd σ ι) (e e' : BranchEntry ι) : Prop where
  bp : s'.bp =
    let bp := if e.trace.cfType = .cbr then d.update s.bp e.trace (s.info e.uop) else s.bp
    if e.mispredicted then d.recover bp (s.info e.uop) else bp
  info : s'.info = s.info
  uop : e'.uop = e.uop
  data : e'.info = e.info
  retired : e'.retired = e.retired
  updated : e'.updated =
    if e.trace.cfType = .cbr then some (s.info e.uop) else e.updated

/-- An executed branch teaches the predictor its own outcome. -/
theorem brExec_learned (k : FetchKnobs) (d : BpDir σ ι) (s : FrontEnd σ ι) (e : BranchEntry ι) :
    Learned d s (s.brExec k d e).1 e (s.brExec k d e).2 := by
  have hredirect : ∀ (s₁ : FrontEnd σ ι) (e₁ : BranchEntry ι),
      (s₁.redirect k e₁).bp = s₁.bp ∧ (s₁.redirect k e₁).info = s₁.info := by
    intro s₁ e₁
    unfold redirect
    split
    · exact ⟨rfl, rfl⟩
    · exact ⟨rfl, rfl⟩
  unfold brExec updateDir recoverDir
  dsimp only
  by_cases hcbr : e.trace.cfType = .cbr
  · simp only [if_pos hcbr]
    by_cases hmis : e.mispredicted = true
    · simp only [if_pos hmis]
      exact ⟨by rw [(hredirect _ _).1]; simp [hmis, hcbr], (hredirect _ _).2, rfl, rfl, rfl,
        by simp [hcbr]⟩
    · simp only [if_neg hmis]
      exact ⟨by rw [(hredirect _ _).1]; simp [hmis, hcbr], (hredirect _ _).2, rfl, rfl, rfl,
        by simp [hcbr]⟩
  · simp only [if_neg hcbr]
    by_cases hmis : e.mispredicted = true
    · simp only [if_pos hmis]
      exact ⟨by rw [(hredirect _ _).1]; simp [hmis, hcbr], (hredirect _ _).2, rfl, rfl, rfl,
        by simp [hcbr]⟩
    · simp only [if_neg hmis]
      exact ⟨by rw [(hredirect _ _).1]; simp [hmis, hcbr], (hredirect _ _).2, rfl, rfl, rfl,
        by simp [hcbr]⟩

/-- The two specifications of the execution of a uop at a position of the log. -/
theorem exec_spec {k : FetchKnobs} {d : BpDir σ ι} {s s' : FrontEnd σ ι} {n : ℕ}
    (hs : s.exec k d n = some s')
    (hbranch : ∀ e ∈ s.log, e.mispredicted = true → e.trace.cfType ≠ .notCf) :
    ∃ e s₁ e₁, s.log[n]? = some e ∧ e.executed = false ∧ Resolved k s s₁ e e₁ ∧
      Learned d s s₁ e e₁ ∧ s' = { s₁ with log := s₁.log.set n { e₁ with executed := true } } := by
  unfold FrontEnd.exec at hs
  split at hs
  · simp at hs
  · next e hn =>
      split at hs
      · simp at hs
      · next hex =>
          have hex : e.executed = false := by simpa using hex
          refine ⟨e, (if e.trace.cfType = .notCf then (s, e) else s.brExec k d e).1,
            (if e.trace.cfType = .notCf then (s, e) else s.brExec k d e).2, hn, hex, ?_, ?_,
            (Option.some.inj hs).symm⟩
          · split
            · next hcf =>
                have hm : ¬ e.mispredicted = true := fun hm =>
                  hbranch e (List.mem_of_getElem? hn) hm hcf
                exact ⟨rfl, rfl, by simp [hm], rfl, rfl, rfl, rfl, by simp [hm]⟩
            · exact brExec_resolved k d s e
          · split
            · next hcf =>
                have hm : ¬ e.mispredicted = true := fun hm =>
                  hbranch e (List.mem_of_getElem? hn) hm hcf
                exact ⟨by simp [hcf, hm], rfl, rfl, rfl, rfl, by simp [hcf]⟩
            · exact brExec_learned k d s e

/-- The entry of a uop is replaced by one with the same fetch, which is not less resolved. -/
theorem Stalls.set {s : FrontEnd σ ι} {n : ℕ} {e e' : BranchEntry ι} (h : Stalls s)
    (hn : s.log[n]? = some e) (htid : e'.tid = e.tid) (hmis : e'.mispredicted = e.mispredicted)
    (hfetch : e'.fetchCycle = e.fetchCycle) (hres : ∀ c, e.resolved = some c → e'.resolved = some c) :
    (s.log.set n e').Pairwise fun e f => e.tid = f.tid → e.mispredicted = true →
      ∃ c, e.resolved = some c ∧ c ≤ f.fetchCycle := by
  obtain ⟨hlt, rfl⟩ := List.getElem?_eq_some_iff.mp hn
  have hpair := List.pairwise_iff_getElem.mp h
  refine List.pairwise_iff_getElem.mpr fun i j hi hj hij ht hm => ?_
  rw [List.length_set] at hi hj
  rw [List.getElem_set] at ht hm ⊢
  rw [List.getElem_set] at ht ⊢
  by_cases hni : n = i
  · subst hni
    rw [if_pos rfl] at ht hm ⊢
    rw [if_neg hij.ne] at ht ⊢
    obtain ⟨c, hc, hle⟩ := hpair n j hi hj hij (htid ▸ ht) (hmis ▸ hm)
    exact ⟨c, hres c hc, hle⟩
  · rw [if_neg hni] at ht hm ⊢
    by_cases hnj : n = j
    · subst hnj
      rw [if_pos rfl] at ht ⊢
      rw [hfetch]
      exact hpair i n hi hj hij (ht.trans htid) hm
    · rw [if_neg hnj] at ht ⊢
      exact hpair i j hi hj hij ht hm

/-- A uop that is resolved: it was the last of its thread, if it was mispredicted. -/
theorem StallBooks.resolve {k : FetchKnobs} {s s₁ : FrontEnd σ ι} {n : ℕ} {e e₁ : BranchEntry ι}
    (h : StallBooks s) (he : e ∈ s.log) (hn : s.log[n]? = some e) (hnone : e.resolved = none)
    (hr : Resolved k s s₁ e e₁) :
    StallBooks { s₁ with log := s₁.log.set n { e₁ with executed := true } } := by
  have hmem : ∀ f ∈ s₁.log.set n { e₁ with executed := true },
      f ∈ s.log ∨ f = { e₁ with executed := true } := by
    intro f hf
    rw [hr.log] at hf
    exact List.mem_or_eq_of_mem_set hf
  have hrest : ∀ f ∈ s₁.log.set n { e₁ with executed := true }, f = { e₁ with executed := true } ∨
      f ∈ s.log ∧ (e.mispredicted = true → f.tid = e.tid → f.mispredicted = true →
        ∃ c, f.resolved = some c ∧ c ≤ s.cycle) := by
    intro f hf
    rw [hr.log] at hf
    obtain ⟨hlt, hget⟩ := List.getElem?_eq_some_iff.mp hn
    obtain ⟨i, hi, rfl⟩ := List.getElem_of_mem hf
    rw [List.length_set] at hi
    rw [List.getElem_set]
    by_cases hni : n = i
    · exact .inl (if_pos hni)
    · rw [if_neg hni]
      refine .inr ⟨List.getElem_mem hi, fun hm ht hfm => ?_⟩
      have hpair := List.pairwise_iff_getElem.mp h.stalls
      rcases lt_or_gt_of_ne hni with hlt' | hgt
      · -- the other branch would be behind this one
        obtain ⟨c, hc, -⟩ := hpair n i hlt hi hlt' (by rw [hget]; exact ht.symm)
          (by rw [hget]; exact hm)
        rw [hget, hnone] at hc
        exact absurd hc (by simp)
      · obtain ⟨c, hc, hle⟩ := hpair i n hi hlt hgt (by rw [hget]; exact ht) hfm
        rw [hget] at hle
        exact ⟨c, hc, hle.trans (h.past e he)⟩
  refine ⟨?_, ?_, ?_, ?_, ?_, ?_, ?_⟩
  · unfold Stalls
    dsimp only
    rw [hr.log]
    exact h.stalls.set hn hr.tid hr.mispredicted hr.fetchCycle fun c hc =>
      absurd (hnone.symm.trans hc) (by simp)
  · intro f hf
    show f.fetchCycle ≤ s₁.cycle
    rw [hr.cycle]
    rcases hmem f hf with hf | rfl
    · exact h.past f hf
    · exact hr.fetchCycle ▸ h.past e he
  · intro f hf hmis hres
    show s₁.recoveryCycle f.tid = ⊤
    rw [hr.recovery]
    rcases hrest f hf with rfl | ⟨hf, hother⟩
    · have hm : e.mispredicted = true := hr.mispredicted ▸ hmis
      have hres' : e₁.resolved = none := hres
      rw [hr.resolved, if_pos hm] at hres'
      exact absurd hres' (by simp)
    · split
      · next hm =>
          by_cases ht : f.tid = e.tid
          · obtain ⟨c, hc, -⟩ := hother hm ht hmis
            exact absurd (hres.symm.trans hc) (by simp)
          · rw [Function.update_of_ne ht]
            exact h.unresolved f hf hmis hres
      · exact h.unresolved f hf hmis hres
  · intro f hf c hres
    show c ≤ s₁.cycle ∨ (c : WithTop ℕ) ≤ s₁.recoveryCycle f.tid
    rw [hr.recovery, hr.cycle]
    rcases hrest f hf with rfl | ⟨hf, hother⟩
    · have hres' : e₁.resolved = some c := hres
      rw [hr.resolved] at hres'
      split at hres'
      · next hm =>
          obtain rfl := Option.some.inj hres'
          right
          rw [if_pos hm]
          show _ ≤ Function.update s.recoveryCycle e.tid _ e₁.tid
          rw [hr.tid, Function.update_self]
      · exact absurd (hnone.symm.trans hres') (by simp)
    · split
      · next hm =>
          by_cases ht : f.tid = e.tid
          · obtain ⟨c', hc', hle⟩ := hother hm ht (h.cause f hf (by simp [hres]))
            obtain rfl := Option.some.inj (hres.symm.trans hc')
            exact .inl hle
          · rw [Function.update_of_ne ht]
            exact h.resolved f hf c hres
      · exact h.resolved f hf c hres
  · intro f hf hex
    rcases hmem f hf with hf | rfl
    · exact h.unexecuted f hf hex
    · exact absurd hex (by simp)
  · intro f hf hres
    rcases hmem f hf with hf | rfl
    · exact h.cause f hf hres
    · have hres' : e₁.resolved ≠ none := hres
      rw [hr.resolved] at hres'
      split at hres'
      · next hm => exact hr.mispredicted.trans hm
      · exact absurd hnone hres'
  · intro f hf hmis
    rcases hmem f hf with hf | rfl
    · exact h.isBranch f hf hmis
    · show e₁.trace.cfType ≠ .notCf
      rw [hr.trace]
      exact h.isBranch e he (hr.mispredicted ▸ hmis)

/-- Executing a branch keeps the stall in the books. -/
theorem StallBooks.exec {k : FetchKnobs} {d : BpDir σ ι} {s s' : FrontEnd σ ι} {n : ℕ}
    (h : StallBooks s) (hs : s.exec k d n = some s') : StallBooks s' := by
  obtain ⟨e, s₁, e₁, hn, hex, hr, -, rfl⟩ := exec_spec hs h.isBranch
  have he : e ∈ s.log := List.mem_of_getElem? hn
  exact h.resolve he hn (h.unexecuted e he hex) hr

/-- Retiring a branch keeps the stall in the books. -/
theorem StallBooks.retire {s s' : FrontEnd σ ι} {n : ℕ} (h : StallBooks s)
    (hs : s.retire n = some s') : StallBooks s' := by
  unfold FrontEnd.retire at hs
  split at hs
  · simp at hs
  · next e hn =>
      split at hs
      · obtain rfl := Option.some.inj hs
        have he : e ∈ s.log := List.mem_of_getElem? hn
        have hmem : ∀ f ∈ s.log.set n { e with retired := true },
            f ∈ s.log ∨ f = { e with retired := true } :=
          fun f hf => List.mem_or_eq_of_mem_set hf
        refine ⟨h.stalls.set hn rfl rfl rfl fun _ => id, ?_, ?_, ?_, ?_, ?_, ?_⟩
        · intro f hf
          rcases hmem f hf with hf | rfl
          · exact h.past f hf
          · exact h.past e he
        · intro f hf
          rcases hmem f hf with hf | rfl
          · exact h.unresolved f hf
          · exact h.unresolved e he
        · intro f hf
          rcases hmem f hf with hf | rfl
          · exact h.resolved f hf
          · exact h.resolved e he
        · intro f hf
          rcases hmem f hf with hf | rfl
          · exact h.unexecuted f hf
          · exact h.unexecuted e he
        · intro f hf
          rcases hmem f hf with hf | rfl
          · exact h.cause f hf
          · exact h.cause e he
        · intro f hf
          rcases hmem f hf with hf | rfl
          · exact h.isBranch f hf
          · exact h.isBranch e he
      · simp at hs

/-! ## Runs -/

/-- Each step of a clean group keeps the stall in the books. -/
theorem StallBooks.step {k : FetchKnobs} {d : BpDir σ ι} {s s' : FrontEnd σ ι} {a : Act}
    (h : StallBooks s) (hclean : CleanGroup k d s a) (hs : s.step k d a = some s') :
    StallBooks s' := by
  cases a with
  | fetch tid space uops =>
      unfold FrontEnd.step processIfetch at hs
      dsimp only at hs
      split at hs
      · exact Option.some.inj hs ▸ h
      · next hstall =>
          have hno : s.stalled tid = false := by simpa using hstall
          have hfree : s.recoveryCycle tid ≤ (s.cycle : WithTop ℕ) := by
            unfold stalled at hno
            simp only [Bool.or_eq_false_iff, decide_eq_false_iff_not, not_lt] at hno
            exact hno.1
          refine h.fetchLoop uops hfree ?_ hs
          simpa [groupSize] using hclean hno
  | exec n => exact h.exec hs
  | retire n => exact h.retire hs
  | tick =>
      obtain rfl := Option.some.inj hs
      refine ⟨h.stalls, fun e he => Nat.le_succ_of_le (h.past e he), h.unresolved, ?_,
        h.unexecuted, h.cause, h.isBranch⟩
      exact fun e he c hc => (h.resolved e he c hc).imp_left Nat.le_succ_of_le

/-- A run of clean groups keeps the stall in the books. -/
theorem StallBooks.run {k : FetchKnobs} {d : BpDir σ ι} (acts : List Act) {s s' : FrontEnd σ ι}
    (h : StallBooks s) (hclean : EachStep (FrontEnd.step k d) (CleanGroup k d) s acts)
    (hrun : s.run k d acts = some s') : StallBooks s' :=
  EachStep.invariant (fun _ _ _ _ hs hact hstep => hs.step hact hstep) h hclean hrun

/-- In every run whose groups end with their first mispredicted branch, fetch stalls behind
every mispredicted branch until it is resolved. -/
theorem fetch_stalls_behind_misprediction {k : FetchKnobs} {d : BpDir σ ι} {bp : σ}
    {info : UopPtr → ι} {acts : List Act} {s : FrontEnd σ ι}
    (hrun : (FrontEnd.new bp info).run k d acts = some s)
    (hclean : EachStep (FrontEnd.step k d) (CleanGroup k d) (FrontEnd.new bp info) acts) :
    Stalls s :=
  (StallBooks.run acts (StallBooks.new bp info) hclean hrun).stalls

/-- Default knobs, with a width. -/
def branchKnobs (width : ℕ) : FetchKnobs :=
  { width := width, useBranchPrediction := true, noFetchBr := false, perfectBp := false
    enableBtb := false, extraRecoveryCycles := 0 }

/-- The default predictor. -/
def defaultGshare : GshareKnobs := { histLength := 5, phtCtrBits := 2 }

/-- A conditional branch. -/
def condBranch (dir : Bool) : BranchUop :=
  { cfType := .cbr, pc := 0, dir := dir, targMiss := false }

/-- A uop that is no branch. -/
def plainUop : BranchUop := { cfType := .notCf, pc := 4, dir := false, targMiss := false }

/-- What the objects of the uop pool hold at first. -/
def noInfo : UopPtr → GshareInfo := fun _ => ⟨0, 0⟩

/-- With a width of one, a branch that is not taken is mispredicted and ends its group; the
next uop is pushed when it is resolved. -/
theorem fetch_stalls_behind_misprediction_width_one :
    ∃ s, (FrontEnd.new (Gshare.new defaultGshare) noInfo).run (branchKnobs 1)
        (Gshare.bpDir defaultGshare)
        [.fetch 0 8 [(0, condBranch false), (1, plainUop)], .exec 0, .tick,
          .fetch 0 8 [(1, plainUop)]] = some s ∧ Stalls s ∧ s.log.length = 2 := by
  obtain ⟨s, hrun, hlen⟩ : ∃ s, (FrontEnd.new (Gshare.new defaultGshare) noInfo).run
      (branchKnobs 1) (Gshare.bpDir defaultGshare)
      [.fetch 0 8 [(0, condBranch false), (1, plainUop)], .exec 0, .tick,
        .fetch 0 8 [(1, plainUop)]] = some s ∧ s.log.length = 2 := ⟨_, rfl, rfl⟩
  have hgroup : ∀ (s : FrontEnd Gshare GshareInfo) (uops : List (UopPtr × BranchUop)),
      CleanGroup (branchKnobs 1) (Gshare.bpDir defaultGshare) s (.fetch 0 8 uops) := by
    intro s uops _ n hn
    simp only [groupSize, branchKnobs] at hn
    omega
  have hclean : EachStep (FrontEnd.step (branchKnobs 1) (Gshare.bpDir defaultGshare))
      (CleanGroup (branchKnobs 1) (Gshare.bpDir defaultGshare))
      (FrontEnd.new (Gshare.new defaultGshare) noInfo)
      [.fetch 0 8 [(0, condBranch false), (1, plainUop)], .exec 0, .tick,
        .fetch 0 8 [(1, plainUop)]] :=
    .cons (hgroup _ _) rfl (.cons trivial rfl (.cons trivial rfl (.cons (hgroup _ _) rfl trivial)))
  exact ⟨s, hrun, fetch_stalls_behind_misprediction hrun hclean, hlen⟩

/-- With a width of two, the uop behind a mispredicted branch is pushed in the same call. -/
theorem fetch_continues_behind_misprediction :
    ∃ s, (FrontEnd.new (Gshare.new defaultGshare) noInfo).run (branchKnobs 2)
        (Gshare.bpDir defaultGshare)
        [.fetch 0 8 [(0, condBranch false), (1, plainUop)]] = some s ∧ ¬ Stalls s := by
  obtain ⟨s, e, f, hrun, hlog, htid, hmis, hres⟩ : ∃ s e f,
      (FrontEnd.new (Gshare.new defaultGshare) noInfo).run (branchKnobs 2)
        (Gshare.bpDir defaultGshare)
        [.fetch 0 8 [(0, condBranch false), (1, plainUop)]] = some s ∧ s.log = [e, f] ∧
      e.tid = f.tid ∧ e.mispredicted = true ∧ e.resolved = none :=
    ⟨_, _, _, rfl, rfl, rfl, rfl, rfl⟩
  refine ⟨s, hrun, fun hstalls => ?_⟩
  unfold Stalls at hstalls
  rw [hlog] at hstalls
  obtain ⟨c, hc, -⟩ := (List.pairwise_cons.mp hstalls).1 f (List.mem_singleton_self _) htid hmis
  exact absurd (hres.symm.trans hc) (by simp)

end FrontEnd

end MacSim.Analysis
