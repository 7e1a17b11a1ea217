import MacSim.Analysis.FetchStall

/-!
# The global history of gshare

`pred` shifts its own prediction into the global history and leaves in the uop the history
with the actual direction; executing a mispredicted branch writes that one back.  This repairs
the history if nothing was predicted in between and if the uop was given to `pred` at all.
Neither is checked: the fetch group goes on behind a mispredicted branch, and a branch whose
target was missed counts as mispredicted also when its kind is never given to `pred`, so that
what an earlier uop left in the recycled object is restored.
-/

set_option autoImplicit false

namespace MacSim.Analysis

open MacSim.Model MacSim.Computation

namespace FrontEnd

open MacSim.Model.FrontEnd

variable {σ ι : Type}

/-! ## Histories -/

/-- The history after a list of directions, the last one in bit `31`. -/
def histOf (dirs : List Bool) : BitVec 32 :=
  dirs.foldl (fun h dir => (h >>> 1) ||| Gshare.dirBit dir) 0

/-- One more branch shifts its direction into the history. -/
theorem histOf_concat (dirs : List Bool) (dir : Bool) :
    histOf (dirs ++ [dir]) = (histOf dirs >>> 1) ||| Gshare.dirBit dir := by
  simp [histOf]

/-- A direction is the highest bit of its mask. -/
theorem dirBit_getLsbD (dir : Bool) {j : ℕ} (hj : j < 32) :
    (Gshare.dirBit dir).getLsbD j = (decide (j = 31) && dir) := by
  unfold Gshare.dirBit
  interval_cases j <;> cases dir <;> decide

/-- Bit `31 - j` of the history is the direction of the branch `j` branches back. -/
theorem histOf_getLsbD (dirs : List Bool) {j : ℕ} (hj : j < 32) :
    (histOf dirs).getLsbD (31 - j) = (dirs.reverse[j]?).getD false := by
  induction dirs using List.reverseRecOn generalizing j with
  | nil => simp [histOf]
  | append_singleton dirs dir ih =>
      rw [histOf_concat, BitVec.getLsbD_or, BitVec.getLsbD_ushiftRight,
        dirBit_getLsbD dir (by omega), List.reverse_append]
      cases j with
      | zero =>
          have hout : (histOf dirs).getLsbD (1 + (31 - 0)) = false :=
            BitVec.getLsbD_of_ge _ _ (by omega)
          rw [hout]
          simp
      | succ j =>
          have hbit : 1 + (31 - (j + 1)) = 31 - j := by omega
          have hne : ¬ 31 - (j + 1) = 31 := by omega
          rw [hbit, ih (by omega), decide_eq_false hne, Bool.false_and, Bool.or_false]
          simp

/-- The directions of the branches that were given to `pred`. -/
def directions (log : List (BranchEntry ι)) : List Bool :=
  log.filterMap fun e => e.info.map fun _ => e.trace.dir

/-- A mispredicted branch that has not executed. -/
def Outstanding (e : BranchEntry ι) : Prop := e.mispredicted = true ∧ e.executed = false

/-! ## What the predictors leave in the uops -/

/-- The data that `pred` left in a uop is there as long as the uop is in use, and `update` gets
it. -/
structure InfoBooks (s : FrontEnd σ ι) : Prop where
  owned : ∀ e ∈ s.log, e.retired = false → ∀ i, e.info = some i → s.info e.uop = i
  distinct : s.log.Pairwise fun e f => e.retired = false → f.retired = false → e.uop ≠ f.uop
  asked : ∀ e ∈ s.log, e.info.isSome = predicts e.trace.cfType
  updated : ∀ e ∈ s.log, ∀ i, e.updated = some i → e.info = some i
  inUse : ∀ e ∈ s.log, e.executed = false → e.retired = false
  isBranch : ∀ e ∈ s.log, e.mispredicted = true → e.trace.cfType ≠ .notCf

/-- A new front end has the information of its branches in the books. -/
theorem InfoBooks.new (bp : σ) (info : UopPtr → ι) : InfoBooks (FrontEnd.new bp info) where
  owned := fun _ h => (List.not_mem_nil h).elim
  distinct := List.Pairwise.nil
  asked := fun _ h => (List.not_mem_nil h).elim
  updated := fun _ h => (List.not_mem_nil h).elim
  inUse := fun _ h => (List.not_mem_nil h).elim
  isBranch := fun _ h => (List.not_mem_nil h).elim

/-- What fetching a uop does to the predictor and its data. -/
structure Predicted (k : FetchKnobs) (d : BpDir σ ι) (s s' : FrontEnd σ ι) (p : UopPtr)
    (u : BranchUop) (e : BranchEntry ι) : Prop where
  unused : ∀ f ∈ s.log, f.retired = false → f.uop ≠ p
  asked : predicts u.cfType = true → s'.bp = (d.pred s.bp u).2.1 ∧
    s'.info = Function.update s.info p (d.pred s.bp u).2.2 ∧
    e.info = some (d.pred s.bp u).2.2 ∧
    e.mispredicted =
      mispredicts k ((d.pred s.bp u).1 != u.dir) (k.enableBtb && u.targMiss)
  notAsked : predicts u.cfType = false → s'.bp = s.bp ∧ s'.info = s.info ∧ e.info = none ∧
    (e.mispredicted = true → u.cfType ≠ .notCf ∧ k.enableBtb = true ∧ u.targMiss = true)
  inUse : e.retired = false

/-- A fetched branch is predicted from the predictor as it is. -/
theorem fetchUop_predicted {k : FetchKnobs} {d : BpDir σ ι} {s s' : FrontEnd σ ι} {tid : ℕ}
    {p : UopPtr} {u : BranchUop} {e : BranchEntry ι} (h : s.fetchUop k d tid p u = some s')
    (hlog : s'.log = s.log ++ [e]) : Predicted k d s s' p u e := by
  unfold fetchUop at h
  split at h
  · simp at h
  · next hunused =>
      have hunused : ∀ f ∈ s.log, f.retired = false → f.uop ≠ p := by
        intro f hf hret he
        apply hunused
        rw [List.any_eq_true]
        exact ⟨f, hf, by simp [he, hret]⟩
      split at h
      · next hcf =>
          obtain rfl := Option.some.inj h
          obtain rfl := List.singleton_inj.mp (List.append_cancel_left hlog)
          refine ⟨hunused, fun hask => ?_, fun _ => ⟨rfl, rfl, rfl, by simp⟩, rfl⟩
          rw [hcf] at hask
          exact absurd hask (by decide)
      · next hcf =>
          have hmis : mispredicts k false (k.enableBtb && u.targMiss) = true →
              k.enableBtb = true ∧ u.targMiss = true := by
            unfold mispredicts
            cases k.enableBtb <;> cases u.targMiss <;> cases k.perfectBp <;>
              cases k.useBranchPrediction <;> cases k.noFetchBr <;> simp
          have hkeep : ∀ (s₁ : FrontEnd σ ι) (e₁ : BranchEntry ι),
              (some (let s₂ : FrontEnd σ ι :=
                  if e₁.mispredicted = true then
                    { s₁ with recoveryCycle := Function.update s₁.recoveryCycle tid ⊤ }
                  else if e₁.btbMiss = true then
                    { s₁ with redirectCycle := Function.update s₁.redirectCycle tid ⊤ }
                  else s₁
                { s₂ with log := s₂.log ++ [e₁] }) : Option (FrontEnd σ ι)) = some s' →
              s₁.log = s.log → s'.bp = s₁.bp ∧ s'.info = s₁.info ∧ e = e₁ := by
            intro s₁ e₁ hs₁ hlog₁
            obtain rfl := Option.some.inj hs₁
            dsimp only at hlog ⊢
            split at hlog
            · rw [if_pos ‹_›]
              rw [hlog₁] at hlog
              exact ⟨rfl, rfl, (List.singleton_inj.mp (List.append_cancel_left hlog)).symm⟩
            · rw [if_neg ‹_›]
              split at hlog
              · rw [if_pos ‹_›]
                rw [hlog₁] at hlog
                exact ⟨rfl, rfl, (List.singleton_inj.mp (List.append_cancel_left hlog)).symm⟩
              · rw [if_neg ‹_›]
                rw [hlog₁] at hlog
                exact ⟨rfl, rfl, (List.singleton_inj.mp (List.append_cancel_left hlog)).symm⟩
          unfold predictBpu at h
          dsimp only at h
          split at h
          · next hask =>
              obtain ⟨hbp, hinfo, rfl⟩ := hkeep _ _ h rfl
              refine ⟨hunused, fun _ => ⟨hbp, hinfo, rfl, rfl⟩, fun hno => ?_, rfl⟩
              exact absurd hask (by simp [hno])
          · next hno =>
              obtain ⟨hbp, hinfo, rfl⟩ := hkeep _ _ h rfl
              refine ⟨hunused, fun hask => absurd hask hno, fun _ => ⟨hbp, hinfo, rfl, ?_⟩, rfl⟩
              exact fun hm => ⟨hcf, hmis hm⟩

/-- A pushed branch keeps the information in the books. -/
theorem InfoBooks.push {k : FetchKnobs} {d : BpDir σ ι} {s s' : FrontEnd σ ι} {tid : ℕ}
    {p : UopPtr} {u : BranchUop} {e : BranchEntry ι} (h : InfoBooks s)
    (hp : Pushed s s' tid p u e) (hq : Predicted k d s s' p u e) : InfoBooks s' := by
  have hmem : ∀ f ∈ s'.log, f ∈ s.log ∨ f = e := by
    intro f hf
    rw [hp.log] at hf
    simpa using hf
  have hinfo : ∀ f ∈ s.log, f.retired = false → s'.info f.uop = s.info f.uop := by
    intro f hf hret
    cases hask : predicts u.cfType with
    | true => rw [(hq.asked hask).2.1, Function.update_of_ne (hq.unused f hf hret)]
    | false => rw [(hq.notAsked hask).2.1]
  refine ⟨?_, ?_, ?_, ?_, ?_, ?_⟩
  · intro f hf hret i hi
    rcases hmem f hf with hf | rfl
    · rw [hinfo f hf hret]
      exact h.owned f hf hret i hi
    · cases hask : predicts u.cfType with
      | true =>
          obtain ⟨-, hs', he, -⟩ := hq.asked hask
          rw [hs', hp.uop, Function.update_self]
          exact Option.some.inj (he.symm.trans hi)
      | false =>
          rw [(hq.notAsked hask).2.2.1] at hi
          exact absurd hi (by simp)
  · rw [hp.log]
    refine List.pairwise_append.mpr ⟨h.distinct, List.pairwise_singleton _ _, ?_⟩
    intro f hf g hg hret _
    obtain rfl := List.mem_singleton.mp hg
    rw [hp.uop]
    exact hq.unused f hf hret
  · intro f hf
    rcases hmem f hf with hf | rfl
    · exact h.asked f hf
    · rw [hp.trace]
      cases hask : predicts u.cfType with
      | true => rw [(hq.asked hask).2.2.1, Option.isSome_some]
      | false => rw [(hq.notAsked hask).2.2.1, Option.isSome_none]
  · intro f hf i hi
    rcases hmem f hf with hf | rfl
    · exact h.updated f hf i hi
    · rw [hp.fresh.2.2] at hi
      exact absurd hi (by simp)
  · intro f hf hex
    rcases hmem f hf with hf | rfl
    · exact h.inUse f hf hex
    · exact hq.inUse
  · intro f hf hmis
    rcases hmem f hf with hf | rfl
    · exact h.isBranch f hf hmis
    · rw [hp.trace]
      exact hp.isBranch hmis

/-- Entries with the same objects, of which none is taken into use. -/
theorem pairwise_set_distinct {l : List (BranchEntry ι)} {n : ℕ} {e e' : BranchEntry ι}
    (h : l.Pairwise fun e f => e.retired = false → f.retired = false → e.uop ≠ f.uop)
    (hn : l[n]? = some e) (huop : e'.uop = e.uop)
    (hret : e'.retired = false → e.retired = false) :
    (l.set n e').Pairwise fun e f => e.retired = false → f.retired = false → e.uop ≠ f.uop := by
  obtain ⟨hlt, rfl⟩ := List.getElem?_eq_some_iff.mp hn
  have hpair := List.pairwise_iff_getElem.mp h
  refine List.pairwise_iff_getElem.mpr fun i j hi hj hij he hf => ?_
  rw [List.length_set] at hi hj
  rw [List.getElem_set] at he hf ⊢
  rw [List.getElem_set]
  by_cases hni : n = i
  · subst hni
    rw [if_pos rfl] at he ⊢
    rw [if_neg hij.ne] at hf ⊢
    rw [huop]
    exact hpair n j hi hj hij (hret he) hf
  · rw [if_neg hni] at he ⊢
    by_cases hnj : n = j
    · subst hnj
      rw [if_pos rfl] at hf ⊢
      rw [huop]
      exact hpair i n hi hj hij he (hret hf)
    · rw [if_neg hnj] at hf ⊢
      exact hpair i j hi hj hij he hf

/-- A conditional branch is predicted. -/
theorem predicts_cbr {t : CfType} (h : t = .cbr) : predicts t = true := by
  rw [h]
  rfl

/-- Executing a branch keeps the information in the books. -/
theorem InfoBooks.exec {k : FetchKnobs} {d : BpDir σ ι} {s s' : FrontEnd σ ι} {n : ℕ}
    (h : InfoBooks s) (hs : s.exec k d n = some s') : InfoBooks s' := by
  obtain ⟨e, s₁, e₁, hn, hex, hr, hl, rfl⟩ := exec_spec hs h.isBranch
  have he : e ∈ s.log := List.mem_of_getElem? hn
  have hmem : ∀ f ∈ s₁.log.set n { e₁ with executed := true },
      f ∈ s.log ∨ f = { e₁ with executed := true } := by
    intro f hf
    rw [hr.log] at hf
    exact List.mem_or_eq_of_mem_set hf
  refine ⟨?_, ?_, ?_, ?_, ?_, ?_⟩
  · intro f hf hret i hi
    show s₁.info f.uop = i
    rw [hl.info]
    rcases hmem f hf with hf | rfl
    · exact h.owned f hf hret i hi
    · show s.info e₁.uop = i
      rw [hl.uop]
      exact h.owned e he (hl.retired ▸ hret) i (hl.data ▸ hi)
  · show (s₁.log.set n _).Pairwise _
    rw [hr.log]
    exact pairwise_set_distinct h.distinct hn hl.uop fun hret => hl.retired ▸ hret
  · intro f hf
    rcases hmem f hf with hf | rfl
    · exact h.asked f hf
    · show e₁.info.isSome = predicts e₁.trace.cfType
      rw [hl.data, hr.trace]
      exact h.asked e he
  · intro f hf i hi
    rcases hmem f hf with hf | rfl
    · exact h.updated f hf i hi
    · have hi' : e₁.updated = some i := hi
      rw [hl.updated] at hi'
      show e₁.info = some i
      rw [hl.data]
      split at hi'
      · next hcbr =>
          -- a conditional branch was given to `pred`
          have hask := h.asked e he
          rw [predicts_cbr hcbr] at hask
          obtain ⟨j, hj⟩ := Option.isSome_iff_exists.mp hask
          have hown := h.owned e he (h.inUse e he hex) j hj
          rw [hj, ← hown]
          exact hi'
      · exact h.updated e he i hi'
  · intro f hf hex'
    rcases hmem f hf with hf | rfl
    · exact h.inUse f hf hex'
    · exact absurd hex' (by simp)
  · intro f hf hmis
    rcases hmem f hf with hf | rfl
    · exact h.isBranch f hf hmis
    · show e₁.trace.cfType ≠ .notCf
      rw [hr.trace]
      exact h.isBranch e he (hr.mispredicted ▸ hmis)

/-- Retiring a branch keeps the information in the books. -/
theorem InfoBooks.retire {s s' : FrontEnd σ ι} {n : ℕ} (h : InfoBooks s)
    (hs : s.retire n = some s') : InfoBooks s' := by
  unfold FrontEnd.retire at hs
  split at hs
  · simp at hs
  · next e hn =>
      split at hs
      · next hguard =>
          obtain rfl := Option.some.inj hs
          have he : e ∈ s.log := List.mem_of_getElem? hn
          have hex : e.executed = true := by
            rw [Bool.and_eq_true] at hguard
            exact hguard.1
          have hmem : ∀ f ∈ s.log.set n { e with retired := true },
              f ∈ s.log ∨ f = { e with retired := true } :=
            fun f hf => List.mem_or_eq_of_mem_set hf
          refine ⟨?_, pairwise_set_distinct h.distinct hn rfl (by simp), ?_, ?_, ?_, ?_⟩
          · intro f hf hret
            rcases hmem f hf with hf | rfl
            · exact h.owned f hf hret
            · exact absurd hret (by simp)
          · intro f hf
            rcases hmem f hf with hf | rfl
            · exact h.asked f hf
            · exact h.asked e he
          · intro f hf
            rcases hmem f hf with hf | rfl
            · exact h.updated f hf
            · exact h.updated e he
          · intro f hf hex'
            rcases hmem f hf with hf | rfl
            · exact h.inUse f hf hex'
            · exact absurd (hex.symm.trans hex') (by simp)
          · intro f hf
            rcases hmem f hf with hf | rfl
            · exact h.isBranch f hf
            · exact h.isBranch e he
      · simp at hs

/-- The fetch loop keeps the information in the books. -/
theorem InfoBooks.fetchLoop {k : FetchKnobs} {d : BpDir σ ι} {tid : ℕ}
    (uops : List (UopPtr × BranchUop)) {space fetched : ℕ} {s s' : FrontEnd σ ι}
    (h : InfoBooks s) (hs : FrontEnd.fetchLoop k d tid space fetched uops s = some s') :
    InfoBooks s' := by
  induction uops generalizing space fetched s with
  | nil =>
      cases space with
      | zero => exact Option.some.inj hs ▸ h
      | succ space => exact Option.some.inj hs ▸ h
  | cons pu rest ih =>
      obtain ⟨p, u⟩ := pu
      cases space with
      | zero => exact Option.some.inj hs ▸ h
      | succ space =>
          unfold FrontEnd.fetchLoop at hs
          obtain ⟨s₁, hs₁, hs⟩ := Option.bind_eq_some_iff.mp hs
          obtain ⟨e, hp, -⟩ := fetchUop_pushed hs₁
          have h₁ := h.push hp (fetchUop_predicted hs₁ hp.log)
          split at hs
          · exact Option.some.inj hs ▸ h₁
          · exact ih h₁ hs

/-- Each step keeps the information in the books. -/
theorem InfoBooks.step {k : FetchKnobs} {d : BpDir σ ι} {s s' : FrontEnd σ ι} {a : Act}
    (h : InfoBooks s) (hs : s.step k d a = some s') : InfoBooks s' := by
  cases a with
  | fetch tid space uops =>
      unfold FrontEnd.step processIfetch at hs
      dsimp only at hs
      split at hs
      · exact Option.some.inj hs ▸ h
      · exact h.fetchLoop uops hs
  | exec n => exact h.exec hs
  | retire n => exact h.retire hs
  | tick =>
      obtain rfl := Option.some.inj hs
      exact ⟨h.owned, h.distinct, h.asked, h.updated, h.inUse, h.isBranch⟩

/-! ## The history -/

/-- A call fetches no branch for `pred` behind a mispredicted one, and the target predictor
misses only branches that `pred` is asked about. -/
def CleanHistory (k : FetchKnobs) (d : BpDir σ ι) (s : FrontEnd σ ι) : Act → Prop
  | .fetch tid space uops => s.stalled tid = false →
      (∀ m n pu, m < n → n < groupSize k space uops → uops[n]? = some pu →
        mispredictedAt k d tid s uops m = true → predicts pu.2.cfType = false) ∧
      ∀ pu ∈ uops, k.enableBtb = true → pu.2.targMiss = true →
        pu.2.cfType = .notCf ∨ predicts pu.2.cfType = true
  | _ => True

/-- The actions fetch from one thread only. -/
def SingleThread (tid : ℕ) (acts : List Act) : Prop :=
  ∀ t space uops, Act.fetch t space uops ∈ acts → t = tid

/-- The directions of two lists are those of the first and those of the second. -/
theorem directions_append (l l' : List (BranchEntry ι)) :
    directions (l ++ l') = directions l ++ directions l' := List.filterMap_append ..

/-- The directions do not change when an entry is replaced by one of the same branch. -/
theorem directions_set {l : List (BranchEntry ι)} {n : ℕ} {e e' : BranchEntry ι}
    (hn : l[n]? = some e) (hinfo : e'.info = e.info) (htrace : e'.trace = e.trace) :
    directions (l.set n e') = directions l := by
  unfold directions
  induction l generalizing n with
  | nil => rfl
  | cons a l ih =>
      cases n with
      | zero =>
          obtain rfl : a = e := by simpa using hn
          rw [List.set_cons_zero, List.filterMap_cons, List.filterMap_cons, hinfo, htrace]
      | succ n =>
          rw [List.set_cons_succ, List.filterMap_cons, List.filterMap_cons, ih (by simpa using hn)]

/-- The same for the entries before a position. -/
theorem directions_take_set {l : List (BranchEntry ι)} {n : ℕ} {e e' : BranchEntry ι}
    (hn : l[n]? = some e) (hinfo : e'.info = e.info) (htrace : e'.trace = e.trace) (m : ℕ) :
    directions ((l.set n e').take m) = directions (l.take m) := by
  rw [List.take_set]
  by_cases hnm : n < m
  · exact directions_set (by rw [List.getElem?_take_of_lt hnm]; exact hn) hinfo htrace
  · rw [List.set_eq_of_length_le]
    rw [List.length_take]
    omega

/-- What the history, and the history in the outstanding branch, say of the directions. -/
structure HistBooks (tid : ℕ) (s : FrontEnd Gshare GshareInfo) : Prop where
  calls : ∀ n e, s.log[n]? = some e → ∀ i, e.info = some i →
    i.predGlobalHist = histOf (directions (s.log.take n))
  settled : (∀ e ∈ s.log, ¬ Outstanding e) → s.bp.globalHist = histOf (directions s.log)
  stash : ∀ e ∈ s.log, Outstanding e →
    ∃ i, e.info = some i ∧ i.globalHist = histOf (directions s.log)
  single : s.log.Pairwise fun e f => Outstanding e → ¬ Outstanding f
  stall : ∀ e ∈ s.log, Outstanding e → s.recoveryCycle e.tid = ⊤
  thread : ∀ e ∈ s.log, e.tid = tid

/-- A new front end has its history in the books. -/
theorem HistBooks.new (tid : ℕ) (g : GshareKnobs) (info : UopPtr → GshareInfo) :
    HistBooks tid (FrontEnd.new (Gshare.new g) info) where
  calls := fun n e h => by simp [FrontEnd.new] at h
  settled := fun _ => rfl
  stash := fun _ h => (List.not_mem_nil h).elim
  single := List.Pairwise.nil
  stall := fun _ h => (List.not_mem_nil h).elim
  thread := fun _ h => (List.not_mem_nil h).elim

/-- A uop that `pred` is not asked about, and that is not mispredicted. -/
theorem HistBooks.push_other {k : FetchKnobs} {d : BpDir Gshare GshareInfo}
    {s s' : FrontEnd Gshare GshareInfo} {tid : ℕ} {p : UopPtr} {u : BranchUop}
    {e : BranchEntry GshareInfo} (h : HistBooks tid s) (hp : Pushed s s' tid p u e)
    (hq : Predicted k d s s' p u e) (hask : predicts u.cfType = false)
    (hmis : e.mispredicted = false) : HistBooks tid s' := by
  obtain ⟨hbp, -, hinfo, -⟩ := hq.notAsked hask
  have hdir : directions s'.log = directions s.log := by
    rw [hp.log, directions_append]
    simp [directions, hinfo]
  have hmem : ∀ f ∈ s'.log, f ∈ s.log ∨ f = e := by
    intro f hf
    rw [hp.log] at hf
    simpa using hf
  have hnot : ¬ Outstanding e := fun ho => by simp [ho.1] at hmis
  refine ⟨?_, ?_, ?_, ?_, ?_, ?_⟩
  · intro n f hn i hi
    rw [hp.log] at hn ⊢
    by_cases hlt : n < s.log.length
    · rw [List.getElem?_append_left hlt] at hn
      rw [List.take_append_of_le_length hlt.le]
      exact h.calls n f hn i hi
    · rw [List.getElem?_append_right (by omega)] at hn
      obtain rfl := List.mem_singleton.mp (List.mem_of_getElem? hn)
      exact absurd (hinfo.symm.trans hi) (by simp)
  · intro hall
    rw [hbp, hdir]
    refine h.settled fun f hf => hall f ?_
    rw [hp.log]
    exact List.mem_append_left _ hf
  · intro f hf ho
    rw [hdir]
    rcases hmem f hf with hf | rfl
    · exact h.stash f hf ho
    · exact absurd ho hnot
  · rw [hp.log]
    refine List.pairwise_append.mpr ⟨h.single, List.pairwise_singleton _ _, ?_⟩
    intro f _ g hg _
    obtain rfl := List.mem_singleton.mp hg
    exact hnot
  · intro f hf ho
    rcases hmem f hf with hf | rfl
    · rw [hp.recovery, hmis]
      exact h.stall f hf ho
    · exact absurd ho hnot
  · intro f hf
    rcases hmem f hf with hf | rfl
    · exact h.thread f hf
    · exact hp.tid

/-- A branch that `pred` is asked about while nothing is outstanding. -/
theorem HistBooks.push_asked {k : FetchKnobs} (hk : k.useBranchPrediction = true)
    (hk' : k.perfectBp = false) {g : GshareKnobs} {s s' : FrontEnd Gshare GshareInfo} {tid : ℕ}
    {p : UopPtr} {u : BranchUop} {e : BranchEntry GshareInfo} (h : HistBooks tid s)
    (hp : Pushed s s' tid p u e) (hq : Predicted k (Gshare.bpDir g) s s' p u e)
    (hask : predicts u.cfType = true) (hnone : ∀ f ∈ s.log, ¬ Outstanding f) :
    HistBooks tid s' := by
  obtain ⟨hbp, -, hinfo, hmis⟩ := hq.asked hask
  have hbefore := h.settled hnone
  set dir := (s.bp.pht (Gshare.phtIndex g s.bp.globalHist u.pc)).getLsbD 1
  have hdir : directions s'.log = directions s.log ++ [u.dir] := by
    rw [hp.log, directions_append]
    simp [directions, hinfo, hp.trace]
  have hafter : s'.bp.globalHist = (s.bp.globalHist >>> 1) ||| Gshare.dirBit dir := by
    rw [hbp]
    rfl
  have hmem : ∀ f ∈ s'.log, f ∈ s.log ∨ f = e := by
    intro f hf
    rw [hp.log] at hf
    simpa using hf
  refine ⟨?_, ?_, ?_, ?_, ?_, ?_⟩
  · intro n f hn i hi
    rw [hp.log] at hn ⊢
    by_cases hlt : n < s.log.length
    · rw [List.getElem?_append_left hlt] at hn
      rw [List.take_append_of_le_length hlt.le]
      exact h.calls n f hn i hi
    · have hle : s.log.length ≤ n := by omega
      rw [List.getElem?_append_right hle] at hn
      have hzero : n - s.log.length = 0 := by
        have := (List.getElem?_eq_some_iff.mp hn).1
        rw [List.length_singleton] at this
        omega
      obtain rfl : n = s.log.length := by omega
      obtain rfl := List.mem_singleton.mp (List.mem_of_getElem? hn)
      obtain rfl := Option.some.inj (hinfo.symm.trans hi)
      rw [List.take_left]
      exact hbefore
  · intro hall
    have he : ¬ Outstanding e := hall e (by rw [hp.log]; simp)
    have hright : dir = u.dir := by
      by_contra hne
      refine he ⟨?_, hp.fresh.2.1⟩
      have hwrong : ((Gshare.bpDir g).pred s.bp u).1 = dir := rfl
      rw [hmis, hwrong]
      simp [mispredicts, hk, hk', hne]
    rw [hafter, hdir, histOf_concat, ← hbefore, hright]
  · intro f hf ho
    rcases hmem f hf with hf | rfl
    · exact absurd ho (hnone f hf)
    · refine ⟨_, hinfo, ?_⟩
      rw [hdir, histOf_concat, ← hbefore]
      rfl
  · rw [hp.log]
    refine List.pairwise_append.mpr ⟨h.single, List.pairwise_singleton _ _, ?_⟩
    intro f hf g _ ho
    exact absurd ho (hnone f hf)
  · intro f hf ho
    rcases hmem f hf with hf | rfl
    · exact absurd ho (hnone f hf)
    · rw [hp.recovery, if_pos ho.1, hp.tid, Function.update_self]
  · intro f hf
    rcases hmem f hf with hf | rfl
    · exact h.thread f hf
    · exact hp.tid

/-- The fetch loop.  Either nothing is outstanding, or the rest of the group has nothing for
`pred`. -/
theorem HistBooks.fetchLoop {k : FetchKnobs} (hk : k.useBranchPrediction = true)
    (hk' : k.perfectBp = false) {g : GshareKnobs} {tid : ℕ} (uops : List (UopPtr × BranchUop))
    {space fetched : ℕ} {s s' : FrontEnd Gshare GshareInfo} (h : HistBooks tid s)
    (hmode : (∀ f ∈ s.log, ¬ Outstanding f) ∨
      ∀ n pu, n < min (min (max k.width 1 - fetched) space) uops.length → uops[n]? = some pu →
        predicts pu.2.cfType = false)
    (hpairs : ∀ m n pu, m < n → n < min (min (max k.width 1 - fetched) space) uops.length →
      uops[n]? = some pu → mispredictedAt k (Gshare.bpDir g) tid s uops m = true →
        predicts pu.2.cfType = false)
    (htarg : ∀ pu ∈ uops, k.enableBtb = true → pu.2.targMiss = true →
      pu.2.cfType = .notCf ∨ predicts pu.2.cfType = true)
    (hroom : fetched < max k.width 1)
    (hs : FrontEnd.fetchLoop k (Gshare.bpDir g) tid space fetched uops s = some s') :
    HistBooks tid s' := by
  induction uops generalizing space fetched s with
  | nil =>
      cases space with
      | zero => exact Option.some.inj hs ▸ h
      | succ space => exact Option.some.inj hs ▸ h
  | cons pu rest ih =>
      obtain ⟨p, u⟩ := pu
      cases space with
      | zero => exact Option.some.inj hs ▸ h
      | succ space =>
          unfold FrontEnd.fetchLoop at hs
          obtain ⟨s₁, hs₁, hs⟩ := Option.bind_eq_some_iff.mp hs
          obtain ⟨e, hp, hmis⟩ := fetchUop_pushed hs₁
          have hq := fetchUop_predicted hs₁ hp.log
          have hroom₀ : 0 < min (min (max k.width 1 - fetched) (space + 1)) ((p, u) :: rest).length := by
            simp only [List.length_cons]
            omega
          have hother : predicts u.cfType = false → e.mispredicted = false := by
            intro hask
            by_contra hm
            obtain ⟨hcf, hbtb, hmiss⟩ := (hq.notAsked hask).2.2.2 (by simpa using hm)
            rcases htarg (p, u) List.mem_cons_self hbtb hmiss with hno | hyes
            · exact hcf hno
            · exact absurd (hask.symm.trans hyes) (by simp)
          have h₁ : HistBooks tid s₁ := by
            cases hask : predicts u.cfType with
            | false => exact h.push_other hp hq hask (hother hask)
            | true =>
                rcases hmode with hnone | hno
                · exact h.push_asked hk hk' hp hq hask hnone
                · exact absurd (hask.symm.trans (hno 0 (p, u) hroom₀ rfl)) (by simp)
          split at hs
          · exact Option.some.inj hs ▸ h₁
          · next hwidth =>
              have hshift : ∀ n, n < min (min (max k.width 1 - (fetched + 1)) space) rest.length →
                  n + 1 < min (min (max k.width 1 - fetched) (space + 1))
                    ((p, u) :: rest).length := by
                intro n hn
                simp only [List.length_cons]
                omega
              refine ih h₁ ?_ ?_ (fun pu hpu => htarg pu (List.mem_cons_of_mem _ hpu)) (by omega) hs
              · by_cases hm : e.mispredicted = true
                · right
                  intro n pu hn hget
                  refine hpairs 0 (n + 1) pu (Nat.succ_pos n) (hshift n hn) (by simpa using hget) ?_
                  unfold mispredictedAt
                  exact hmis ▸ hm
                · rcases hmode with hnone | hno
                  · left
                    intro f hf ho
                    rw [hp.log] at hf
                    rcases List.mem_append.mp hf with hf | hf
                    · exact hnone f hf ho
                    · obtain rfl := List.mem_singleton.mp hf
                      exact hm ho.1
                  · right
                    intro n pu hn hget
                    exact hno (n + 1) pu (hshift n hn) (by simpa using hget)
              · intro m n pu hmn hn hget hm
                refine hpairs (m + 1) (n + 1) pu (Nat.succ_lt_succ hmn) (hshift n hn)
                  (by simpa using hget) ?_
                unfold mispredictedAt
                rw [hs₁]
                exact hm

/-- An entry of a list with one position replaced. -/
theorem mem_set_cases {α : Type} {l : List α} {n : ℕ} {a b : α} (h : b ∈ l.set n a) :
    b = a ∨ ∃ i, i ≠ n ∧ l[i]? = some b := by
  obtain ⟨i, hi, rfl⟩ := List.getElem_of_mem h
  rw [List.getElem_set]
  by_cases hni : n = i
  · exact .inl (if_pos hni)
  · rw [if_neg hni]
    rw [List.length_set] at hi
    exact .inr ⟨i, fun hin => hni hin.symm, List.getElem?_eq_getElem hi⟩

/-- Only one branch is outstanding. -/
theorem HistBooks.unique {s : FrontEnd Gshare GshareInfo} {tid i n : ℕ}
    {e f : BranchEntry GshareInfo} (h : HistBooks tid s) (hn : s.log[n]? = some e)
    (hi : s.log[i]? = some f) (hne : i ≠ n) (he : Outstanding e) : ¬ Outstanding f := by
  obtain ⟨hlt, rfl⟩ := List.getElem?_eq_some_iff.mp hn
  obtain ⟨hlt', rfl⟩ := List.getElem?_eq_some_iff.mp hi
  have hpair := List.pairwise_iff_getElem.mp h.single
  rcases lt_or_gt_of_ne hne with hlt₁ | hlt₁
  · exact fun hf => hpair i n hlt' hlt hlt₁ hf he
  · exact hpair n i hlt hlt' hlt₁ he

/-- An entry is replaced by one of the same branch, which is not outstanding unless the old
one was. -/
theorem HistBooks.set {s s' : FrontEnd Gshare GshareInfo} {tid n : ℕ}
    {e e' : BranchEntry GshareInfo} (h : HistBooks tid s) (hn : s.log[n]? = some e)
    (hlog : s'.log = s.log.set n e') (hinfo : e'.info = e.info) (htrace : e'.trace = e.trace)
    (htid : e'.tid = e.tid) (ho : Outstanding e' → Outstanding e)
    (hsettled : (∀ f ∈ s'.log, ¬ Outstanding f) → s'.bp.globalHist = histOf (directions s.log))
    (hstall : ∀ f ∈ s'.log, Outstanding f → s'.recoveryCycle f.tid = ⊤) : HistBooks tid s' := by
  have hdir : directions s'.log = directions s.log := by
    rw [hlog]
    exact directions_set hn hinfo htrace
  refine ⟨?_, ?_, ?_, ?_, hstall, ?_⟩
  · intro m f hm i hi
    rw [hlog] at hm ⊢
    rw [directions_take_set hn hinfo htrace]
    by_cases hnm : n = m
    · subst hnm
      have hf : f = e' := by
        rw [List.getElem?_set_self (List.getElem?_eq_some_iff.mp hn).1] at hm
        exact (Option.some.inj hm).symm
      rw [hf, hinfo] at hi
      exact h.calls n e hn i hi
    · rw [List.getElem?_set_ne hnm] at hm
      exact h.calls m f hm i hi
  · rw [hdir]
    exact hsettled
  · intro f hf hof
    rw [hdir]
    rw [hlog] at hf
    rcases mem_set_cases hf with rfl | ⟨i, -, hi⟩
    · rw [hinfo]
      exact h.stash e (List.mem_of_getElem? hn) (ho hof)
    · exact h.stash f (List.mem_of_getElem? hi) hof
  · rw [hlog]
    obtain ⟨hlt, hget⟩ := List.getElem?_eq_some_iff.mp hn
    have hpair := List.pairwise_iff_getElem.mp h.single
    refine List.pairwise_iff_getElem.mpr fun i j hi hj hij hoi => ?_
    rw [List.length_set] at hi hj
    rw [List.getElem_set] at hoi ⊢
    by_cases hni : n = i
    · subst hni
      rw [if_pos rfl] at hoi
      rw [if_neg hij.ne]
      exact hpair n j hi hj hij (hget ▸ ho hoi)
    · rw [if_neg hni] at hoi
      by_cases hnj : n = j
      · subst hnj
        rw [if_pos rfl]
        exact fun hoe => hpair i n hi hj hij hoi (hget ▸ ho hoe)
      · rw [if_neg hnj]
        exact hpair i j hi hj hij hoi
  · intro f hf
    rw [hlog] at hf
    rcases mem_set_cases hf with rfl | ⟨i, -, hi⟩
    · exact htid.trans (h.thread e (List.mem_of_getElem? hn))
    · exact h.thread f (List.mem_of_getElem? hi)

/-- Executing a branch keeps the history in the books. -/
theorem HistBooks.exec {k : FetchKnobs} {g : GshareKnobs} {s s' : FrontEnd Gshare GshareInfo}
    {tid n : ℕ} (h : HistBooks tid s) (hb : InfoBooks s)
    (hs : s.exec k (Gshare.bpDir g) n = some s') : HistBooks tid s' := by
  obtain ⟨e, s₁, e₁, hn, hex, hr, hl, rfl⟩ := exec_spec hs hb.isBranch
  have he : e ∈ s.log := List.mem_of_getElem? hn
  have hdone : ¬ Outstanding { e₁ with executed := true } := fun ho => by simpa using ho.2
  have hlog : s₁.log.set n { e₁ with executed := true } =
      s.log.set n { e₁ with executed := true } := by rw [hr.log]
  refine h.set hn hlog hl.data hr.trace hr.tid
    (fun ho => absurd ho hdone) ?_ ?_
  · intro hall
    show s₁.bp.globalHist = _
    rw [hl.bp]
    by_cases hm : e.mispredicted = true
    · -- the history is restored from the uop
      obtain ⟨i, hi, hhist⟩ := h.stash e he ⟨hm, hex⟩
      have hown := hb.owned e he (hb.inUse e he hex) i hi
      simp only [hm, if_true]
      rw [← hhist, ← hown]
      rfl
    · have hnone : ∀ f ∈ s.log, ¬ Outstanding f := by
        intro f hf ho
        obtain ⟨i, hi, rfl⟩ := List.getElem_of_mem hf
        by_cases hin : n = i
        · subst hin
          have hfe : s.log[n] = e := by
            rw [List.getElem?_eq_getElem hi] at hn
            exact Option.some.inj hn
          rw [hfe] at ho
          exact hm ho.1
        · refine hall s.log[i] ?_ ho
          show s.log[i] ∈ s₁.log.set n _
          rw [hr.log]
          refine List.mem_of_getElem? (i := i) ?_
          rw [List.getElem?_set_ne hin, List.getElem?_eq_getElem hi]
      rw [← h.settled hnone]
      simp only [if_neg hm]
      split
      · rfl
      · rfl
  · intro f hf ho
    rw [hlog] at hf
    show s₁.recoveryCycle f.tid = ⊤
    rcases mem_set_cases hf with rfl | ⟨i, hin, hi⟩
    · exact absurd ho hdone
    · by_cases hm : e.mispredicted = true
      · exact absurd ho (h.unique hn hi hin ⟨hm, hex⟩)
      · rw [hr.recovery, if_neg hm]
        exact h.stall f (List.mem_of_getElem? hi) ho

/-- Retiring a branch keeps the history in the books. -/
theorem HistBooks.retire {s s' : FrontEnd Gshare GshareInfo} {tid n : ℕ} (h : HistBooks tid s)
    (hs : s.retire n = some s') : HistBooks tid s' := by
  unfold FrontEnd.retire at hs
  split at hs
  · simp at hs
  · next e hn =>
      split at hs
      · obtain rfl := Option.some.inj hs
        refine h.set hn rfl rfl rfl rfl (fun ho => ⟨ho.1, ho.2⟩) ?_ ?_
        · intro hall
          refine h.settled fun f hf ho => ?_
          obtain ⟨i, hi, rfl⟩ := List.getElem_of_mem hf
          by_cases hin : n = i
          · subst hin
            have hfe : s.log[n] = e := by
              rw [List.getElem?_eq_getElem hi] at hn
              exact Option.some.inj hn
            rw [hfe] at ho
            refine hall { e with retired := true } ?_ ⟨ho.1, ho.2⟩
            exact List.mem_of_getElem? (List.getElem?_set_self hi)
          · refine hall s.log[i] ?_ ho
            refine List.mem_of_getElem? (i := i) ?_
            rw [List.getElem?_set_ne hin, List.getElem?_eq_getElem hi]
        · intro f hf ho
          rcases mem_set_cases hf with rfl | ⟨i, -, hi⟩
          · exact h.stall e (List.mem_of_getElem? hn) ⟨ho.1, ho.2⟩
          · exact h.stall f (List.mem_of_getElem? hi) ho
      · simp at hs

/-! ## Runs -/

/-- Each step with a clean history keeps the history in the books. -/
theorem HistBooks.step {k : FetchKnobs} (hk : k.useBranchPrediction = true)
    (hk' : k.perfectBp = false) {g : GshareKnobs} {s s' : FrontEnd Gshare GshareInfo} {tid : ℕ}
    {a : Act} (h : HistBooks tid s) (hb : InfoBooks s)
    (hone : ∀ t space uops, a = .fetch t space uops → t = tid)
    (hclean : CleanHistory k (Gshare.bpDir g) s a)
    (hs : s.step k (Gshare.bpDir g) a = some s') : HistBooks tid s' := by
  cases a with
  | fetch t space uops =>
      obtain rfl := hone t space uops rfl
      unfold FrontEnd.step processIfetch at hs
      dsimp only at hs
      split at hs
      · exact Option.some.inj hs ▸ h
      · next hstall =>
          have hno : s.stalled t = false := by simpa using hstall
          have hfree : s.recoveryCycle t ≤ (s.cycle : WithTop ℕ) := by
            unfold stalled at hno
            simp only [Bool.or_eq_false_iff, decide_eq_false_iff_not, not_lt] at hno
            exact hno.1
          obtain ⟨hpairs, htarg⟩ := hclean hno
          refine h.fetchLoop hk hk' uops (.inl ?_) ?_ htarg (by omega) hs
          · intro f hf ho
            have htop := h.stall f hf ho
            rw [h.thread f hf] at htop
            rw [htop] at hfree
            exact absurd hfree (by simp)
          · simpa [groupSize] using hpairs
  | exec n => exact h.exec hb hs
  | retire n => exact h.retire hs
  | tick =>
      obtain rfl := Option.some.inj hs
      exact ⟨h.calls, h.settled, h.stash, h.single, h.stall, h.thread⟩

/-- Every run keeps the information in the books. -/
theorem InfoBooks.run {k : FetchKnobs} {d : BpDir σ ι} {bp : σ} {info : UopPtr → ι}
    {acts : List Act} {s : FrontEnd σ ι} (hrun : (FrontEnd.new bp info).run k d acts = some s) :
    InfoBooks s :=
  Ensures.foldlM (f := FrontEnd.step k d) acts (FrontEnd.new bp info) (InfoBooks.new bp info)
    (fun _ hy _ _ _ hs => hy.step hs) s hrun

/-- A run with clean histories keeps the history in the books. -/
theorem HistBooks.run {k : FetchKnobs} (hk : k.useBranchPrediction = true)
    (hk' : k.perfectBp = false) {g : GshareKnobs} {tid : ℕ} (acts : List Act)
    {s s' : FrontEnd Gshare GshareInfo} (h : HistBooks tid s) (hb : InfoBooks s)
    (hone : SingleThread tid acts)
    (hclean : EachStep (FrontEnd.step k (Gshare.bpDir g)) (CleanHistory k (Gshare.bpDir g)) s acts)
    (hrun : s.run k (Gshare.bpDir g) acts = some s') : HistBooks tid s' := by
  have hboth : HistBooks tid s' ∧ InfoBooks s' := by
    refine EachStep.invariant (I := fun s => HistBooks tid s ∧ InfoBooks s) ?_ ⟨h, hb⟩ hclean hrun
    rintro t a ha t' ⟨hist, info⟩ hact hstep
    refine ⟨hist.step hk hk' info ?_ hact hstep, info.step hstep⟩
    intro u space uops heq
    exact hone u space uops (heq ▸ ha)
  exact hboth.1

/-- The bits of a history are the last `32` of a list of directions, and zeros before. -/
def HistoryIs (hist : BitVec 32) (dirs : List Bool) : Prop :=
  ∀ j < 32, hist.getLsbD (31 - j) = (dirs.reverse[j]?).getD false

/-- A state whose history is exact: every branch was predicted with the directions of the branches
before it, the history has the directions of all if nothing is outstanding, and `update` writes
the entry of the table that `pred` read. -/
structure HistoryExact (g : GshareKnobs) (s : FrontEnd Gshare GshareInfo) : Prop where
  calls : ∀ n e, s.log[n]? = some e → ∀ i, e.info = some i →
    HistoryIs i.predGlobalHist (directions (s.log.take n))
  settled : (∀ e ∈ s.log, ¬ Outstanding e) → HistoryIs s.bp.globalHist (directions s.log)
  index : ∀ e ∈ s.log, ∀ i j, e.info = some i → e.updated = some j →
    Gshare.phtIndex g j.predGlobalHist e.trace.pc = Gshare.phtIndex g i.predGlobalHist e.trace.pc

/-- In every run of one thread that meets the condition, the global history is exact. -/
theorem global_history_exact {k : FetchKnobs} (hk : k.useBranchPrediction = true)
    (hk' : k.perfectBp = false) {g : GshareKnobs} {tid : ℕ} {info : UopPtr → GshareInfo}
    {acts : List Act} {s : FrontEnd Gshare GshareInfo} (hone : SingleThread tid acts)
    (hrun : (FrontEnd.new (Gshare.new g) info).run k (Gshare.bpDir g) acts = some s)
    (hclean : EachStep (FrontEnd.step k (Gshare.bpDir g)) (CleanHistory k (Gshare.bpDir g))
      (FrontEnd.new (Gshare.new g) info) acts) :
    HistoryExact g s := by
  have hb := InfoBooks.run hrun
  have h := HistBooks.run hk hk' acts (HistBooks.new tid g info) (InfoBooks.new _ info) hone
    hclean hrun
  refine ⟨?_, ?_, ?_⟩
  · intro n e hn i hi j hj
    rw [h.calls n e hn i hi]
    exact histOf_getLsbD _ hj
  · intro hnone j hj
    rw [h.settled hnone]
    exact histOf_getLsbD _ hj
  · intro e he i j hi hj
    have hsame := hb.updated e he j hj
    rw [Option.some.inj (hi.symm.trans hsame)]

/-- A mispredicted branch, its resolution, and the next branch. -/
theorem global_history_exact_recovered :
    ∃ s, (FrontEnd.new (Gshare.new defaultGshare) noInfo).run (branchKnobs 1)
        (Gshare.bpDir defaultGshare)
        [.fetch 0 8 [(0, condBranch false)], .exec 0, .tick,
          .fetch 0 8 [(1, condBranch true)]] = some s ∧ HistoryExact defaultGshare s := by
  obtain ⟨s, hrun⟩ : ∃ s, (FrontEnd.new (Gshare.new defaultGshare) noInfo).run (branchKnobs 1)
      (Gshare.bpDir defaultGshare)
      [.fetch 0 8 [(0, condBranch false)], .exec 0, .tick,
        .fetch 0 8 [(1, condBranch true)]] = some s := ⟨_, rfl⟩
  have hfetch : ∀ (s : FrontEnd Gshare GshareInfo) (p : UopPtr) (dir : Bool),
      CleanHistory (branchKnobs 1) (Gshare.bpDir defaultGshare) s
        (.fetch 0 8 [(p, condBranch dir)]) := by
    intro s p dir _
    refine ⟨fun m n pu hmn hn => ?_, fun pu _ hbtb => absurd hbtb (by decide)⟩
    simp only [groupSize, branchKnobs] at hn
    omega
  have hclean : EachStep (FrontEnd.step (branchKnobs 1) (Gshare.bpDir defaultGshare))
      (CleanHistory (branchKnobs 1) (Gshare.bpDir defaultGshare))
      (FrontEnd.new (Gshare.new defaultGshare) noInfo)
      [.fetch 0 8 [(0, condBranch false)], .exec 0, .tick,
        .fetch 0 8 [(1, condBranch true)]] :=
    .cons (hfetch _ _ _) rfl (.cons trivial rfl (.cons trivial rfl
      (.cons (hfetch _ _ _) rfl trivial)))
  have hone : SingleThread 0 [.fetch 0 8 [(0, condBranch false)], .exec 0, .tick,
      .fetch 0 8 [(1, condBranch true)]] := by
    intro t space uops hmem
    simp at hmem
    rcases hmem with ⟨rfl, -, -⟩ | ⟨rfl, -, -⟩ <;> rfl
  exact ⟨s, hrun, global_history_exact rfl rfl hone hrun hclean⟩

/-- A branch behind a mispredicted one in the same group is dropped from the history when the
mispredicted one is resolved: the third branch is predicted, with nothing outstanding, with a
history whose last direction is wrong. -/
theorem global_history_loses_branch :
    ∃ s s' i, (FrontEnd.new (Gshare.new defaultGshare) noInfo).run (branchKnobs 2)
        (Gshare.bpDir defaultGshare)
        [.fetch 0 8 [(0, condBranch false), (1, condBranch true)], .exec 0, .tick] = some s ∧
      (∀ e ∈ s.log, ¬ Outstanding e) ∧
      s.step (branchKnobs 2) (Gshare.bpDir defaultGshare)
        (.fetch 0 8 [(2, condBranch true)]) = some s' ∧
      (s'.log[2]?.bind fun e => e.info) = some i ∧
      ¬ HistoryIs i.predGlobalHist (directions (s'.log.take 2)) := by
  obtain ⟨s, s', i, e, f, hrun, hlog, he, hf, hstep, hcall, hdirs, hhist⟩ : ∃ s s' i e f,
      (FrontEnd.new (Gshare.new defaultGshare) noInfo).run (branchKnobs 2)
        (Gshare.bpDir defaultGshare)
        [.fetch 0 8 [(0, condBranch false), (1, condBranch true)], .exec 0, .tick] = some s ∧
      s.log = [e, f] ∧ e.executed = true ∧ f.mispredicted = false ∧
      s.step (branchKnobs 2) (Gshare.bpDir defaultGshare)
        (.fetch 0 8 [(2, condBranch true)]) = some s' ∧
      (s'.log[2]?.bind fun e => e.info) = some i ∧
      directions (s'.log.take 2) = [false, true] ∧ i.predGlobalHist.getLsbD 31 = false :=
    ⟨_, _, _, _, _, rfl, rfl, rfl, rfl, rfl, rfl, rfl, rfl⟩
  refine ⟨s, s', i, hrun, ?_, hstep, hcall, fun hexact => ?_⟩
  · rw [hlog]
    intro b hb ho
    rcases List.mem_cons.mp hb with rfl | hb
    · exact absurd (he.symm.trans ho.2) (by simp)
    · obtain rfl := List.mem_singleton.mp hb
      exact absurd (hf.symm.trans ho.1) (by simp)
  · have hbit := hexact 0 (by decide)
    rw [hdirs, hhist] at hbit
    exact absurd hbit (by decide)

end FrontEnd

end MacSim.Analysis
