import MacSim.Analysis.BarrierFetch
import MacSim.Analysis.BarrierRelease

/-!
# Barriers separate

In a run in which no fetch group goes on behind a barrier, and in which no warp joins a block
that has met a barrier or lost a warp, the barriers of every block are barriers: what a warp
pushes behind one is pushed after all warps of the block have retired it, the entry of the block
is there whenever it is looked up, and a fetching cycle of the frontend lets go exactly the warps
of the blocks whose last warp has arrived.
-/

set_option autoImplicit false

namespace MacSim.Analysis

open MacSim.Model MacSim.Computation

namespace BarCore

variable {s s' : BarCore} {k : BarKnobs} {done : List ℕ} {b t : ℕ} {R : ℕ → ℕ}

/-! ## Blocks and warps -/

/-- A warp that is created in a block with room keeps the phases. -/
theorem Phased.createThread (h : Phased s done R) {uops : List WarpUop} {i : BlockCounts}
    (hinfo : s.blockInfo b = some i) (hroom : i.dispatchedThreadNum < i.totalThreadNum) :
    Phased (s.createThread b uops) done R := by
  set n := s.fetch.uniqueScheduledThreadNum with hn
  set s' := s.createThread b uops with hs'
  have hblk := h.blocks b
  have hnum : s'.fetch.uniqueScheduledThreadNum = n + 1 := rfl
  have hnew : s'.warp n =
      { blockId := b, uops := uops, fetched := 0, retired := 0, instsRetired := 0
        fetchBlocked := false } := Function.update_self ..
  have hold : ∀ t, t < n → s'.warp t = s.warp t := fun t ht =>
    Function.update_of_ne (Nat.ne_of_lt ht) ..
  have hended : ∀ t, t < n → s'.fetch.fetchEnded t = s.fetch.fetchEnded t := fun t ht =>
    Function.update_of_ne (Nat.ne_of_lt ht) ..
  have hreach : ∀ t, t < n → s'.fetch.threadReachEnd t = s.fetch.threadReachEnd t := fun t ht =>
    Function.update_of_ne (Nat.ne_of_lt ht) ..
  have hlive : s'.fetch.threadReachEnd n = false := Function.update_self ..
  have hzero : R b = 0 := by
    by_contra hne
    have hfull := (hblk.full (Nat.pos_of_ne_zero hne)).2 i hinfo
    omega
  have hmem : ∀ c, members s' c = if c = b then insert n (members s c) else members s c := by
    intro c
    ext t
    rw [mem_members, hnum]
    rcases Nat.lt_trichotomy t n with ht | ht | ht
    · rw [hold t ht]
      have hne : t ≠ n := ht.ne
      split <;> simp [mem_members, ← hn, ht, hne, Nat.lt_succ_of_lt ht]
    · rw [ht, hnew]
      split
      · next hc => simp [hc]
      · next hc => simp [mem_members, ← hn, Ne.symm hc]
    · split <;> simp [mem_members, ← hn, Nat.not_lt.mpr ht.le, ht.ne', Nat.not_lt.mpr ht]
  have hlt : ∀ c, ∀ t ∈ members s c, t < n := fun c t ht => (mem_members.mp ht).1
  have hout : n ∉ members s b := fun hin => Nat.lt_irrefl n (hlt b n hin)
  refine ⟨fun t ht => ?_, fun c => ?_, h.distinct, .step .create h.threads rfl,
    fun t ht hend => ?_⟩
  · rw [hnum] at ht
    rcases Nat.lt_succ_iff_lt_or_eq.mp ht with ht | rfl
    · rw [hold t ht, hended t ht]
      exact h.warps t ht
    · rw [hnew]
      dsimp only
      rw [hzero]
      exact ⟨le_rfl, Nat.zero_le _, Nat.zero_le _, fun heq => (Nat.zero_ne_one heq).elim,
        fun hblocked => (Bool.false_ne_true hblocked).elim⟩
  · by_cases hc : c = b
    · subst hc
      have hmem' : members s' c = insert n (members s c) := (hmem c).trans (if_pos rfl)
      have hentry : s'.blockInfo c =
          some { i with dispatchedThreadNum := i.dispatchedThreadNum + 1 } := by
        refine (Function.update_self ..).trans ?_
        rw [hinfo]
        rfl
      obtain ⟨hcard, hdispatched, hretired, htotal⟩ := hblk.info i hinfo
      have hcard' : (members s' c).card = i.dispatchedThreadNum + 1 := by
        rw [hmem', Finset.card_insert_of_notMem hout, hcard]
      have harrived : arrived s' c (R c) = arrived s c (R c) := by
        unfold arrived
        rw [hmem', Finset.filter_insert, if_neg (by rw [hnew, hzero]; exact Nat.zero_ne_one)]
        exact Finset.filter_congr fun t ht => by rw [hold t (hlt c t ht)]
      have hgone : gone s' c = gone s c := by
        unfold gone
        rw [hmem', Finset.filter_insert, if_neg (by rw [hlive]; exact Bool.false_ne_true)]
        exact Finset.filter_congr fun t ht => by rw [hreach t (hlt c t ht)]
      refine ⟨fun e he => ?_, fun hnone t ht => ?_, hblk.listed, fun j hj => ?_, fun hno => ?_,
        fun hr => ?_⟩
      · obtain ⟨hcount, hle, htot, -, u, hu, hpushed⟩ := hblk.entry e he
        have hnumTotal := htot i hinfo
        rw [harrived]
        refine ⟨hcount, by omega, fun j hj => ?_, fun hno => ?_, u,
          by rw [hmem']; exact Finset.mem_insert_of_mem hu, ?_⟩
        · obtain rfl := Option.some.inj (hentry.symm.trans hj)
          exact hnumTotal
        · cases hentry.symm.trans hno
        · rw [hold u (hlt c u hu)]
          exact hpushed
      · rw [hmem'] at ht
        rcases Finset.mem_insert.mp ht with rfl | ht
        · rw [hnew]
          exact Nat.zero_le _
        · rw [hold t (hlt c t ht)]
          exact hblk.noEntry hnone t ht
      · obtain rfl := Option.some.inj (hentry.symm.trans hj)
        rw [hgone]
        exact ⟨hcard', hroom, hretired, htotal⟩
      · cases hentry.symm.trans hno
      · omega
    · have hsame : SameBlock s s' c := ⟨(hmem c).trans (if_neg hc),
        fun t ht => by rw [hold t (hlt c t ht)], fun t ht => by rw [hold t (hlt c t ht)],
        fun t ht => hreach t (hlt c t ht)⟩
      exact (h.blocks c).same hsame rfl (Function.update_of_ne hc ..) Iff.rfl
  · rw [hnum] at ht
    rcases Nat.lt_succ_iff_lt_or_eq.mp ht with ht | rfl
    · rw [hreach t ht] at hend
      rw [hended t ht]
      exact h.ends t ht hend
    · rw [hlive] at hend
      cases hend

/-- A warp joins a block that has met no barrier and has lost no warp. -/
theorem Phased.insertBlock (h : Phased s done R) (hfresh : ∀ t ∈ members s b,
    pushedBars (s.warp t) = 0 ∧ s.fetch.threadReachEnd t = false) :
    Phased (s.insertBlock b) done R := by
  have hblk := h.blocks b
  set i := (s.blockInfo b).getD ⟨0, 0, 0⟩ with hi
  have hentry : (s.insertBlock b).blockInfo b =
      some { i with totalThreadNum := i.totalThreadNum + 1 } := Function.update_self ..
  have hzero : R b = 0 := by
    by_contra hne
    obtain ⟨⟨t, ht⟩, -⟩ := hblk.full (Nat.pos_of_ne_zero hne)
    have hw := h.warps t (mem_members.mp ht).1
    rw [(mem_members.mp ht).2] at hw
    have hlow := hw.low
    have hle := hw.retired_le_pushed
    have hnone := (hfresh t ht).1
    omega
  have hcounts : (members s b).card = i.dispatchedThreadNum ∧
      i.dispatchedThreadNum ≤ i.totalThreadNum ∧ (gone s b).card = i.retiredThreadNum := by
    cases hinfo : s.blockInfo b with
    | some j =>
        rw [hi, hinfo]
        obtain ⟨hcard, hle, hretired, -⟩ := hblk.info j hinfo
        exact ⟨hcard, hle, hretired⟩
    | none =>
        rw [hi, hinfo]
        have hempty : members s b = ∅ := Finset.eq_empty_of_forall_notMem fun t ht => by
          have hend := hblk.noInfo hinfo t ht
          rw [(hfresh t ht).2] at hend
          cases hend
        unfold gone
        rw [hempty]
        exact ⟨rfl, le_rfl, rfl⟩
  obtain ⟨hcard, hdispatched, hretired⟩ := hcounts
  have hsub : (gone s b).card ≤ (members s b).card :=
    Finset.card_le_card (Finset.filter_subset _ _)
  refine ⟨h.warps, fun c => ?_, h.distinct, h.threads, h.ends⟩
  by_cases hc : c = b
  · subst hc
    refine ⟨fun e he => ?_, hblk.noEntry, hblk.listed, fun j hj => ?_, fun hno => ?_, fun hr => ?_⟩
    · obtain ⟨-, -, -, -, t, ht, hpushed⟩ := hblk.entry e he
      have hnone := (hfresh t ht).1
      omega
    · obtain rfl := Option.some.inj (hentry.symm.trans hj)
      exact ⟨hcard, Nat.le_succ_of_le hdispatched, hretired, Or.inl (by dsimp only; omega)⟩
    · cases hentry.symm.trans hno
    · omega
  · exact (h.blocks c).same ⟨rfl, fun _ _ => rfl, fun _ _ => rfl, fun _ _ => rfl⟩ rfl
      (Function.update_of_ne hc ..) Iff.rfl

/-! ## A cycle of the frontend -/

/-- What a cycle does that gets to the fetch stage: the listed blocks are released, and of the
warps that were blocked before exactly theirs are let go, but for those that have ended. -/
structure Released (s s' : BarCore) : Prop where
  listed : s'.syncDone = []
  entries : ∀ b ∈ s.syncDone, s'.syncInfo b = none
  letGo : ∀ t, t < s.fetch.uniqueScheduledThreadNum → (s.warp t).fetchBlocked = true →
    ((s'.warp t).fetchBlocked = false ↔
      (s.warp t).blockId ∈ s.syncDone ∧ s.fetch.fetchEnded t = false)
  messages : s'.messages = s.messages

/-- No group of a cycle goes on behind a barrier. -/
def GroupsEnd (k : BarKnobs) (s : BarCore) (c : FrontendCycle) : Prop :=
  s.fetches k c = true → TurnsEnd k (BarCore.turnsOf k c) none (s.advanceModulo k c)

/-- A cycle of the frontend does not fail, and releases exactly the listed blocks when it fetches.
-/
theorem Phased.runACycle (h : Phased s s.syncDone R) {c : FrontendCycle}
    (hends : GroupsEnd k s c) :
    ∃ s', s.runACycle k c = .ok s' ∧ (∃ R', Phased s' s'.syncDone R') ∧
      if s.fetches k c then Released s s' else s' = s.advanceModulo k c := by
  obtain ⟨modulo, hmod⟩ : ∃ m, s.advanceModulo k c = { s with fetchModulo := m } := by
    unfold BarCore.advanceModulo
    split
    · exact ⟨s.fetchModulo, rfl⟩
    · split <;> exact ⟨_, rfl⟩
  have h₀ : Phased (s.advanceModulo k c) s.syncDone R := by
    rw [hmod]
    exact ⟨h.warps, fun b => (h.blocks b).same ⟨rfl, fun _ _ => rfl, fun _ _ => rfl, fun _ _ => rfl⟩
      rfl rfl Iff.rfl, h.distinct, h.threads, h.ends⟩
  have hkept₀ : FetchKept s (s.advanceModulo k c) := by
    rw [hmod]
    exact ⟨rfl, rfl, rfl, rfl, rfl, fun _ _ => ⟨rfl, rfl⟩⟩
  unfold BarCore.runACycle
  dsimp only
  by_cases hfetches : s.fetches k c = true
  · simp only [if_pos hfetches]
    obtain ⟨s₁, hturns, h₁, hkept₁⟩ := h₀.fetchTurns (BarCore.turnsOf k c) none (hends hfetches)
    rw [hturns]
    have hkept := hkept₀.trans hkept₁
    have h₂ : Phased { s₁ with syncDone := [] } s.syncDone R :=
      ⟨h₁.warps, fun b => (h₁.blocks b).same ⟨rfl, fun _ _ => rfl, fun _ _ => rfl, fun _ _ => rfl⟩
        rfl rfl Iff.rfl, h₁.distinct, h₁.threads, h₁.ends⟩
    obtain ⟨⟨sync, hfold, hsync⟩, R', h'⟩ := Phased.foldl_releaseBlock s.syncDone h₂
    have hrelease : s₁.release = { s₁ with
        syncDone := [], warp := BarCore.letGo { s₁ with syncDone := [] } s.syncDone
        syncInfo := sync } := by
      unfold BarCore.release
      rw [hkept.listed, hfold]
    refine ⟨s₁.release, rfl, ⟨R', ?_⟩, ?_, fun b hb => ?_, fun t ht hblocked => ?_, ?_⟩
    · have hlast : s₁.release = s.syncDone.foldl BarCore.releaseBlock { s₁ with syncDone := [] } := by
        unfold BarCore.release
        rw [hkept.listed]
      rw [hlast, hfold] at *
      exact h'
    · rw [hrelease]
    · rw [hrelease]
      exact (hsync b).trans (if_pos hb)
    · obtain ⟨hwarp, hend⟩ := hkept.frozen t hblocked
      rw [hrelease]
      show (BarCore.letGo { s₁ with syncDone := [] } s.syncDone t).fetchBlocked = false ↔ _
      unfold BarCore.letGo
      dsimp only
      rw [hwarp, hend, hkept.num]
      split
      · next hgo => exact iff_of_true rfl ⟨hgo.2.2, hgo.2.1⟩
      · next hstay =>
        refine iff_of_false (fun hopen => ?_) fun hgo => hstay ⟨ht, hgo.2, hgo.1⟩
        rw [hblocked] at hopen
        cases hopen
    · rw [hrelease]
      exact hkept.messages
  · simp only [if_neg hfetches]
    refine ⟨_, rfl, ⟨R, ?_⟩, rfl⟩
    rw [hkept₀.listed]
    exact h₀

/-! ## Runs -/

/-- No fetch group goes on behind a barrier, and no warp joins a block that has met a barrier or
lost a warp. -/
def Undisturbed (k : BarKnobs) (s : BarCore) : BarAction → Prop
  | .insertBlock b => ∀ t ∈ members s b,
      pushedBars (s.warp t) = 0 ∧ s.fetch.threadReachEnd t = false
  | .runACycle c => GroupsEnd k s c
  | _ => True

/-- A new core is in phase. -/
theorem phased_new (k : BarKnobs) : Phased (BarCore.new k) [] fun _ => 0 := by
  have hmem : ∀ b, members (BarCore.new k) b = ∅ := fun b => by
    unfold members BarCore.new FetchCore.new
    simp
  have hnone : ∀ b, ∀ t, t ∉ members (BarCore.new k) b := fun b t => by simp [hmem b]
  refine ⟨fun t ht => (Nat.not_lt_zero t ht).elim, fun b => ⟨fun e he => ?_,
    fun _ t ht => (hnone b t ht).elim, ?_, fun i hi => ?_, fun _ t ht => (hnone b t ht).elim,
    fun hr => ?_⟩, List.nodup_nil, .new, fun t ht => (Nat.not_lt_zero t ht).elim⟩
  · cases he
  · refine iff_of_false List.not_mem_nil ?_
    rintro ⟨e, he, -⟩
    cases he
  · unfold gone
    rw [hmem b]
    unfold BarCore.new at hi
    dsimp only at hi
    split at hi
    · obtain rfl := Option.some.inj hi
      exact ⟨rfl, le_rfl, rfl, Or.inr rfl⟩
    · cases hi
  · cases hr

/-- A uop retires. -/
theorem Phased.retire (h : Phased s s.syncDone R) (ha : s.Offered (.retire t)) :
    Meets (s.retire k t) (fun s' => Phased s' s'.syncDone R ∧
      (s'.warp t).blockId = (s.warp t).blockId ∧ (s'.warp t).uops = (s.warp t).uops ∧
      s'.fetch.uniqueScheduledThreadNum = s.fetch.uniqueScheduledThreadNum)
      (· = .noProgress) := by
  obtain ⟨ht, hlive, hlt⟩ := ha
  have hlt : (s.warp t).retired < (s.warp t).fetched := by omega
  unfold BarCore.retire
  dsimp only
  cases huop : (s.warp t).uops[(s.warp t).retired]? with
  | none => exact ⟨h, rfl, rfl, rfl⟩
  | some uop =>
      dsimp only
      set insts := if uop.isitBom = true then (s.warp t).instsRetired + 1
        else (s.warp t).instsRetired with hinsts
      set s₁ := s.setWarp t { s.warp t with
        retired := (s.warp t).retired + 1, instsRetired := insts } with hs₁
      have hrest : ∀ s₂ : BarCore, Phased s₂ s₂.syncDone R → s₂.fetch = s.fetch →
          (s₂.warp t).blockId = (s.warp t).blockId → (s₂.warp t).uops = (s.warp t).uops →
          Meets (if (s.warp t).retired + 1 = (s.warp t).uops.length ∨ k.maxInsts ≤ insts then
              s₂.terminateThread t else .ok s₂) (fun s' => Phased s' s'.syncDone R ∧
            (s'.warp t).blockId = (s.warp t).blockId ∧ (s'.warp t).uops = (s.warp t).uops ∧
            s'.fetch.uniqueScheduledThreadNum = s.fetch.uniqueScheduledThreadNum)
            (· = .noProgress) := by
        intro s₂ h₂ hfetch hblock huops
        split
        · refine (h₂.terminateThread (by rw [hfetch]; exact ht)
            (by rw [hfetch]; exact hlive)).mono ?_ fun _ he => he
          rintro s' ⟨h', hdone, hwarp, hnum⟩
          rw [hdone, hwarp, hnum, hfetch]
          exact ⟨h', hblock, huops, rfl⟩
        · exact ⟨h₂, hblock, huops, by rw [hfetch]⟩
      cases hbar : uop.barFetch with
      | true =>
          obtain ⟨s₂, hok, h₂, hfetch, -, hblock, huops, -⟩ :=
            h.retireBar ht hlt huop hbar insts
          rw [if_pos rfl, hok]
          exact hrest s₂ h₂ hfetch hblock huops
      | false =>
          rw [if_neg Bool.false_ne_true]
          have hwarp : s₁.warp t = { s.warp t with
            retired := (s.warp t).retired + 1, instsRetired := insts } :=
            Function.update_self ..
          exact hrest s₁ (h.retirePlain ht hlt huop hbar insts) rfl (by rw [hwarp]) (by rw [hwarp])

/-- Every action that meets the condition leaves the blocks in their phases. -/
theorem Phased.step {a : BarAction} (h : Phased s s.syncDone R) (ha : s.Offered a)
    (hp : Undisturbed k s a) (hs : s.step k a = .ok s') : ∃ R', Phased s' s'.syncDone R' := by
  cases a with
  | insertBlock b =>
      cases hs
      exact ⟨R, h.insertBlock hp⟩
  | createThread b uops =>
      obtain ⟨-, i, hi, hroom⟩ := ha
      cases hs
      exact ⟨R, h.createThread hi hroom⟩
  | runACycle c =>
      obtain ⟨s₁, hok, h', -⟩ := h.runACycle hp
      obtain rfl := Except.ok.inj (hok.symm.trans hs)
      exact h'
  | dequeue =>
      cases hs
      exact ⟨R, h.push _⟩
  | retire t => exact ⟨R, ((h.retire ha).result hs).1⟩

/-- Every undisturbed run keeps the phases. -/
theorem phased_of_run (h : s.RunOf k (Undisturbed k)) : ∃ R, Phased s s.syncDone R := by
  induction h with
  | new => exact ⟨_, phased_new k⟩
  | step a _ ha hp hs ih =>
      obtain ⟨R, hphased⟩ := ih
      exact hphased.step ha hp hs

/-! ## What the barriers promise -/

/-- All warps of a block have been dispatched, and `P` holds of each. -/
def EveryWarp (s : BarCore) (b : ℕ) (P : Warp → Prop) : Prop :=
  (∀ i, s.blockInfo b = some i → i.dispatchedThreadNum = i.totalThreadNum) ∧
    ∀ t ∈ members s b, P (s.warp t)

/-- A uop that follows the `m`-th barrier of a warp was pushed into the frontend queue. -/
def PushedBehind (w : Warp) (m : ℕ) : Prop :=
  ∃ j < w.fetched, m ≤ barriers (w.uops.take j)

/-- What the barriers of the blocks promise in a state. -/
structure BarriersSeparate (k : BarKnobs) (s : BarCore) : Prop where
  /-- what follows a barrier is pushed after all warps have retired the barrier -/
  separate : ∀ t, t < s.fetch.uniqueScheduledThreadNum → ∀ m, 1 ≤ m → PushedBehind (s.warp t) m →
    EveryWarp s (s.warp t).blockId fun w => m ≤ retiredBars w
  /-- the entry is there when a barrier retires -/
  found : ∀ t, s.Offered (.retire t) → s.retire k t ≠ .error .noSyncInfo
  /-- the last warp that retires a barrier puts the block on the list -/
  last : ∀ t s' uop, s.Offered (.retire t) → (s.warp t).uops[(s.warp t).retired]? = some uop →
    uop.barFetch = true → s.retire k t = .ok s' →
    EveryWarp s' (s.warp t).blockId (fun w => retiredBars (s.warp t) + 1 ≤ retiredBars w) →
    (s.warp t).blockId ∈ s'.syncDone
  /-- a block is on the list only when all its warps have retired the barrier and none has gone
  on -/
  listed : ∀ b ∈ s.syncDone, ∃ m, 1 ≤ m ∧
    EveryWarp s b fun w => retiredBars w = m ∧ pushedBars w = m
  /-- the next cycle that fetches releases the listed blocks; one that does not changes nothing
  but its counter -/
  released : ∀ c s', GroupsEnd k s c → s.runACycle k c = .ok s' →
    if s.fetches k c then Released s s' else s' = s.advanceModulo k c

/-- When a warp has pushed a uop behind a barrier, all warps of its block have retired the barrier.
-/
theorem Phased.separate (h : Phased s done R) (ht : t < s.fetch.uniqueScheduledThreadNum)
    {m : ℕ} (hm : 1 ≤ m) (hbehind : PushedBehind (s.warp t) m) :
    EveryWarp s (s.warp t).blockId fun w => m ≤ retiredBars w := by
  obtain ⟨j, hj, hbars⟩ := hbehind
  have hw := h.warps t ht
  have hle : m ≤ R (s.warp t).blockId := by
    by_contra hlt
    have hmono := barriers_take_mono (s.warp t).uops (Nat.le_sub_one_of_lt hj)
    have hpushed := barriers_take_mono (s.warp t).uops (Nat.sub_le (s.warp t).fetched 1)
    change _ ≤ pushedBars (s.warp t) at hpushed
    have hhigh := hw.high
    have hbefore := (hw.waits (by omega)).2
    omega
  refine ⟨((h.blocks _).full (hm.trans hle)).2, fun u hu => ?_⟩
  obtain ⟨hu, hblock⟩ := mem_members.mp hu
  have hlow := (h.warps u hu).low
  rw [hblock] at hlow
  exact hle.trans hlow

/-- The last warp that retires a barrier lists its block. -/
theorem Phased.last (h : Phased s s.syncDone R) {uop : WarpUop} (ha : s.Offered (.retire t))
    (huop : (s.warp t).uops[(s.warp t).retired]? = some uop) (hbar : uop.barFetch = true)
    (hs : s.retire k t = .ok s') (hall : EveryWarp s' (s.warp t).blockId fun w =>
      retiredBars (s.warp t) + 1 ≤ retiredBars w) :
    (s.warp t).blockId ∈ s'.syncDone := by
  obtain ⟨h', hblock, -, hnum⟩ := (h.retire ha).result hs
  obtain ⟨ht, -, hlt⟩ := ha
  have ht' : t < s'.fetch.uniqueScheduledThreadNum := by rwa [hnum]
  have hw := h.warps t ht
  have hone : barriers ((s.warp t).uops.take ((s.warp t).retired + 1)) =
      retiredBars (s.warp t) + 1 := by
    rw [barriers_take_succ huop, hbar]
    rfl
  have hle := barriers_take_mono (s.warp t).uops
    (show (s.warp t).retired + 1 ≤ (s.warp t).fetched by omega)
  change _ ≤ pushedBars (s.warp t) at hle
  have hhigh := hw.high
  have hlow := hw.low
  have hbars : retiredBars (s.warp t) = R (s.warp t).blockId := by omega
  have hblk := h'.blocks (s.warp t).blockId
  obtain ⟨hfull, hevery⟩ := hall
  have hmem : t ∈ members s' (s.warp t).blockId := mem_members.mpr ⟨ht', hblock⟩
  have harrived : arrived s' (s.warp t).blockId (R (s.warp t).blockId) =
      members s' (s.warp t).blockId := by
    refine Finset.filter_true_of_mem fun u hu => ?_
    have hmore := hevery u hu
    obtain ⟨hu, hub⟩ := mem_members.mp hu
    have hwu := h'.warps u hu
    rw [hub] at hwu
    have hup := hwu.retired_le_pushed
    have huh := hwu.high
    omega
  obtain ⟨e, he⟩ : ∃ e, s'.syncInfo (s.warp t).blockId = some e := by
    cases hsync : s'.syncInfo (s.warp t).blockId with
    | some e => exact ⟨e, rfl⟩
    | none =>
        have hno := hblk.noEntry hsync t hmem
        have hmore := hevery t hmem
        have hup := (h'.warps t ht').retired_le_pushed
        omega
  obtain ⟨hcount, -, htotal, hnone, -⟩ := hblk.entry e he
  rw [harrived] at hcount
  refine hblk.listed.mpr ⟨e, he, ?_⟩
  cases hinfo : s'.blockInfo (s.warp t).blockId with
  | none => rw [hcount, hnone hinfo]
  | some i =>
      have hnum := htotal i hinfo
      have hdispatched := hfull i hinfo
      have hcard := (hblk.info i hinfo).1
      omega

/-- In a run in which no fetch group goes on behind a barrier, and in which no warp joins a block
that has met a barrier or lost a warp, the barriers separate in every state. -/
theorem barriers_separate (h : s.RunOf k (Undisturbed k)) : BarriersSeparate k s := by
  obtain ⟨R, hphased⟩ := phased_of_run h
  refine ⟨fun t ht m hm => hphased.separate ht hm, fun t ha => ?_,
    fun t s' uop ha huop hbar hs => hphased.last ha huop hbar hs, fun b hb => ?_,
    fun c s' hends hs => ?_⟩
  · exact (hphased.retire ha).ne_error fun he => by cases he
  · obtain ⟨-, hall, hdispatched⟩ := hphased.all_arrived hb
    exact ⟨R b + 1, Nat.succ_pos _, hdispatched, hall⟩
  · obtain ⟨s₁, hok, -, hdone⟩ := hphased.runACycle hends
    obtain rfl := Except.ok.inj (hok.symm.trans hs)
    exact hdone

/-- A core that fetches one uop at a time never fetches behind a barrier. -/
theorem groupsEnd_of_width (hwidth : k.width ≤ 1) (s : BarCore) (c : FrontendCycle) :
    GroupsEnd k s c := by
  intro _
  generalize BarCore.turnsOf k c = turns
  generalize s.advanceModulo k c = s₀
  generalize (none : Option ℕ) = prev
  induction turns generalizing s₀ prev with
  | nil => exact True.intro
  | cons turn turns ih =>
      intro t _ _
      refine ⟨fun _ j hj => ?_, fun s' _ => ih s' (some t)⟩
      omega

/-- One uop a cycle, one warp scheduler, fetch in every cycle. -/
def oneUop : BarKnobs where
  fetchRatio := 1
  numWarpScheduler := 1
  width := 1
  fetchWidth := 1
  feSize := 8
  maxInsts := 100

/-- A cycle in which every warp passes the checks. -/
def openCycle : FrontendCycle where
  feRunning := true
  turns := fun _ =>
    { checks :=
        { noFetchOnIcacheMiss := false, ptxSim := true, mtNoFetchBr := false
          fetchOnlyLoadReady := false, fetchReady := fun _ => true, fetchBlocked := fun _ => false
          brReady := fun _ => true, loadReady := fun _ => true }
      feStall := false
      ifetch := true }

/-- The core can take the action, and no warp joins a block too late. -/
def allowed (s : BarCore) : BarAction → Bool
  | .createThread b uops => decide (uops ≠ []) &&
      (s.blockInfo b).any fun i => decide (i.dispatchedThreadNum < i.totalThreadNum)
  | .retire t => decide (t < s.fetch.uniqueScheduledThreadNum ∧ s.fetch.threadReachEnd t = false ∧
      (s.warp t).retired + s.queue.count t < (s.warp t).fetched)
  | .insertBlock b => decide (∀ t ∈ members s b,
      pushedBars (s.warp t) = 0 ∧ s.fetch.threadReachEnd t = false)
  | _ => true

/-- An allowed action is offered, and disturbs nothing in a core that fetches one uop at a time. -/
theorem offered_of_allowed (hwidth : k.width ≤ 1) {a : BarAction} (h : allowed s a = true) :
    s.Offered a ∧ Undisturbed k s a := by
  cases a with
  | insertBlock b =>
      unfold allowed at h
      rw [decide_eq_true_eq] at h
      exact ⟨True.intro, h⟩
  | createThread b uops =>
      unfold allowed at h
      rw [Bool.and_eq_true, decide_eq_true_eq] at h
      cases hi : s.blockInfo b with
      | none =>
          rw [hi] at h
          cases h.2
      | some i =>
          rw [hi] at h
          exact ⟨⟨h.1, i, hi, of_decide_eq_true h.2⟩, True.intro⟩
  | runACycle c => exact ⟨True.intro, groupsEnd_of_width hwidth s c⟩
  | dequeue => exact ⟨True.intro, True.intro⟩
  | retire t =>
      unfold allowed at h
      rw [decide_eq_true_eq] at h
      exact ⟨h, True.intro⟩

/-- Actions that are all allowed. -/
def tryRun (k : BarKnobs) : List BarAction → BarCore → Option BarCore
  | [], s => some s
  | a :: acts, s =>
      if allowed s a then
        match s.step k a with
        | .ok s' => tryRun k acts s'
        | .error _ => none
      else none

/-- Actions that are tried and succeed lead from a run to a run. -/
theorem tryRun_run (hwidth : k.width ≤ 1) (acts : List BarAction)
    (h : s.RunOf k (Undisturbed k)) (hrun : tryRun k acts s = some s') :
    s'.RunOf k (Undisturbed k) := by
  induction acts generalizing s with
  | nil =>
      obtain rfl := Option.some.inj hrun
      exact h
  | cons a acts ih =>
      unfold tryRun at hrun
      by_cases hallowed : allowed s a = true
      · rw [if_pos hallowed] at hrun
        cases hstep : s.step k a with
        | error e =>
            rw [hstep] at hrun
            cases hrun
        | ok s₁ =>
            rw [hstep] at hrun
            obtain ⟨hoffered, hcond⟩ := offered_of_allowed hwidth hallowed
            exact ih (h.step a hoffered hcond hstep) hrun
      · rw [if_neg hallowed] at hrun
        cases hrun

/-- Two warps of block 1 meet a barrier; the first one pushes its next uop after both have
retired it. -/
theorem barriers_separate_two : ∃ s : BarCore, s.RunOf oneUop (Undisturbed oneUop) ∧
    BarriersSeparate oneUop s ∧ PushedBehind (s.warp 0) 1 := by
  have hrun : (tryRun oneUop
      [.insertBlock 1, .insertBlock 1, .createThread 1 [⟨true, true⟩, ⟨false, true⟩],
        .createThread 1 [⟨true, true⟩, ⟨false, true⟩], .runACycle openCycle, .dequeue, .retire 0,
        .runACycle openCycle, .dequeue, .retire 1, .runACycle openCycle, .runACycle openCycle]
      (BarCore.new oneUop)).any (fun s => decide (1 < (s.warp 0).fetched ∧
        1 ≤ barriers ((s.warp 0).uops.take 1))) = true := by decide +kernel
  generalize hs : tryRun oneUop _ (BarCore.new oneUop) = last at hrun
  cases last with
  | none => cases hrun
  | some s =>
      have h := tryRun_run le_rfl _ .new hs
      exact ⟨s, h, barriers_separate h, 1, of_decide_eq_true hrun⟩

end BarCore

end MacSim.Analysis
