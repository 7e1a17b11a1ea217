import MacSim.Analysis.BarrierPhases
import MacSim.Analysis.RoundRobin

/-!
# Fetching up to a barrier

`process_ifetch` asks whether a warp is blocked once, before it fetches a group of uops.  If no
group has a uop behind a barrier, then a warp that has pushed a barrier waits at it, and the
fetch stage leaves every block in its phase.
-/

set_option autoImplicit false

namespace MacSim.Analysis

open MacSim.Model

namespace BarCore

variable {s s' : BarCore} {k : BarKnobs} {done : List ℕ} {t : ℕ} {R : ℕ → ℕ}

/-! ## One uop -/

/-- What the fetch stage leaves as it was: which warps there are and which have ended, the done
list, and all of the warps that were blocked. -/
structure FetchKept (s s' : BarCore) : Prop where
  num : s'.fetch.uniqueScheduledThreadNum = s.fetch.uniqueScheduledThreadNum
  ended : s'.fetch.threadReachEnd = s.fetch.threadReachEnd
  last : s'.fetch.lastTerminatedTid = s.fetch.lastTerminatedTid
  listed : s'.syncDone = s.syncDone
  messages : s'.messages = s.messages
  frozen : ∀ u, (s.warp u).fetchBlocked = true →
    s'.warp u = s.warp u ∧ s'.fetch.fetchEnded u = s.fetch.fetchEnded u

/-- Nothing has to change. -/
theorem FetchKept.refl (s : BarCore) : FetchKept s s :=
  ⟨rfl, rfl, rfl, rfl, rfl, fun _ _ => ⟨rfl, rfl⟩⟩

/-- One change may follow another. -/
theorem FetchKept.trans {s'' : BarCore} (h : FetchKept s s') (h' : FetchKept s' s'') :
    FetchKept s s'' := by
  refine ⟨h'.num.trans h.num, h'.ended.trans h.ended, h'.last.trans h.last,
    h'.listed.trans h.listed, h'.messages.trans h.messages, fun u hu => ?_⟩
  obtain ⟨hwarp, hend⟩ := h.frozen u hu
  obtain ⟨hwarp', hend'⟩ := h'.frozen u (by rw [hwarp, hu])
  exact ⟨hwarp'.trans hwarp, hend'.trans hend⟩

/-- A fetched uop is counted with its warp. -/
@[simp]
theorem takeUop_warp (s : BarCore) (t : ℕ) :
    (s.takeUop t).warp t = { s.warp t with fetched := (s.warp t).fetched + 1 } :=
  Function.update_self ..

/-- A fetched uop changes no other warp. -/
theorem takeUop_other (s : BarCore) {t u : ℕ} (h : u ≠ t) : (s.takeUop t).warp u = s.warp u :=
  Function.update_of_ne h ..

/-- Only the last uop of a warp ends its fetch. -/
theorem takeUop_fetch (s : BarCore) (t : ℕ) : (s.takeUop t).fetch = s.fetch ∨
    (s.takeUop t).fetch = s.fetch.endFetch t := by
  unfold BarCore.takeUop
  dsimp only
  split
  · exact Or.inr rfl
  · exact Or.inl rfl

/-- The fetch part of a core in which at most the fetch of one thread has ended. -/
structure EndsAtMost (f f' : FetchCore) (t : ℕ) : Prop where
  num : f'.uniqueScheduledThreadNum = f.uniqueScheduledThreadNum
  ended : f'.threadReachEnd = f.threadReachEnd
  last : f'.lastTerminatedTid = f.lastTerminatedTid
  fetchEnded : ∀ u, u ≠ t → f'.fetchEnded u = f.fetchEnded u

/-- A fetched uop ends the fetch of its own warp at most. -/
theorem endsAtMost_takeUop (s : BarCore) (t : ℕ) : EndsAtMost s.fetch (s.takeUop t).fetch t := by
  rcases takeUop_fetch s t with h | h <;> rw [h]
  · exact ⟨rfl, rfl, rfl, fun _ _ => rfl⟩
  · exact ⟨rfl, rfl, rfl, fun u hu => Function.update_of_ne hu ..⟩

/-- The last uop of a warp ends its fetch. -/
theorem takeUop_last {s : BarCore} {t : ℕ} (h : (s.warp t).fetched + 1 = (s.warp t).uops.length) :
    (s.takeUop t).fetch.fetchEnded t = true := by
  unfold BarCore.takeUop
  dsimp only
  rw [if_pos h]
  exact Function.update_self ..

/-- A fetched uop changes one warp only. -/
theorem takeUop_oneWarp (s : BarCore) (t : ℕ) : OneWarp s (s.takeUop t) t := by
  have hends := endsAtMost_takeUop s t
  exact ⟨hends.num, fun u hu => takeUop_other s hu, by rw [takeUop_warp], fun _ _ => rfl,
    fun _ _ => rfl, fun u _ => by rw [hends.ended], hends.fetchEnded⟩

/-- A fetched uop leads to a reachable state of the threads. -/
theorem takeUop_reachable (h : FetchCore.Reachable s.fetch)
    (ht : t < s.fetch.uniqueScheduledThreadNum) (hopen : s.fetch.fetchEnded t = false) :
    FetchCore.Reachable (s.takeUop t).fetch := by
  rcases takeUop_fetch s t with hf | hf <;> rw [hf]
  · exact h
  · exact .step (.endFetch t) h (if_pos ⟨ht, hopen⟩)

/-- A uop that is no barrier leaves every warp in its phase. -/
theorem Phased.takeUop (h : Phased s done R) (ht : t < s.fetch.uniqueScheduledThreadNum)
    (hopen : s.fetch.fetchEnded t = false) (hfree : (s.warp t).fetchBlocked = false)
    {uop : WarpUop} (huop : (s.warp t).uops[(s.warp t).fetched]? = some uop)
    (hbar : uop.barFetch = false) : Phased (s.takeUop t) done R := by
  have hone := takeUop_oneWarp s t
  have hends := endsAtMost_takeUop s t
  have hw := h.warps t ht
  have hpushed : pushedBars ((s.takeUop t).warp t) = pushedBars (s.warp t) := by
    rw [takeUop_warp]
    unfold pushedBars
    dsimp only
    rw [barriers_take_succ huop, hbar]
    rfl
  have hopenBars := hw.pushed_of_open hfree
  have hsame : SameBlock s (s.takeUop t) (s.warp t).blockId := by
    refine ⟨hone.members _, fun u _ => ?_, fun u _ => ?_, fun u _ => by rw [hends.ended]⟩
    · by_cases hut : u = t
      · rw [hut, hpushed]
      · rw [takeUop_other s hut]
    · by_cases hut : u = t
      · rw [hut, takeUop_warp]
        rfl
      · rw [takeUop_other s hut]
  refine h.oneWarp hone (fun _ _ => Iff.rfl) h.distinct (takeUop_reachable h.threads ht hopen)
    (fun hend => ?_) ⟨?_, ?_, ?_, fun heq => ?_, fun hblock => ?_⟩
    ((h.blocks _).same hsame rfl rfl Iff.rfl)
  · rw [hends.ended] at hend
    rw [h.ends t ht hend] at hopen
    cases hopen
  · rw [takeUop_warp]
    exact hw.retired_le.trans (Nat.le_succ _)
  · rw [takeUop_warp]
    exact hw.low
  · rw [hpushed]
    exact hw.high
  · rw [hpushed, hopenBars] at heq
    omega
  · rw [takeUop_warp] at hblock
    change (s.warp t).fetchBlocked = true at hblock
    rw [hfree] at hblock
    cases hblock

/-- A barrier makes the entry of its block if there is none. -/
theorem reachBarrier_ok {i : BlockCounts} (hinfo : s.blockInfo (s.warp t).blockId = some i) :
    ∃ e sync, s.reachBarrier t = .ok
        { s.setWarp t { s.warp t with fetchBlocked := true } with syncInfo := sync } ∧
      sync (s.warp t).blockId = some e ∧
      (s.syncInfo (s.warp t).blockId = some e ∨
        s.syncInfo (s.warp t).blockId = none ∧ e = ⟨0, i.totalThreadNum⟩) ∧
      ∀ b, b ≠ (s.warp t).blockId → sync b = s.syncInfo b := by
  unfold BarCore.reachBarrier BarCore.setWarp
  dsimp only
  cases hsync : s.syncInfo (s.warp t).blockId with
  | some e => exact ⟨e, s.syncInfo, rfl, hsync, Or.inl rfl, fun _ _ => rfl⟩
  | none =>
      rw [hinfo]
      exact ⟨_, _, rfl, Function.update_self .., Or.inr ⟨rfl, rfl⟩,
        fun b hb => Function.update_of_ne hb ..⟩

/-- A barrier that a free warp pushes is the one after the released ones; the warp waits at it,
and its block has an entry. -/
theorem Phased.reachBarrier (h : Phased s done R) (ht : t < s.fetch.uniqueScheduledThreadNum)
    (hopen : s.fetch.fetchEnded t = false) (hfree : (s.warp t).fetchBlocked = false)
    {uop : WarpUop} (huop : (s.warp t).uops[(s.warp t).fetched]? = some uop)
    (hbar : uop.barFetch = true) :
    ∃ s', (s.takeUop t).reachBarrier t = .ok s' ∧ Phased s' done R ∧
      s'.fetch = (s.takeUop t).fetch ∧ OneWarp s s' t ∧ s'.syncDone = s.syncDone ∧
      s'.messages = s.messages ∧ s'.queue = s.queue ∧
      s'.warp t = { s.warp t with fetched := (s.warp t).fetched + 1, fetchBlocked := true } := by
  have hw := h.warps t ht
  have hblk := h.blocks (s.warp t).blockId
  have hmem : t ∈ members s (s.warp t).blockId := mem_members.mpr ⟨ht, rfl⟩
  have hlive : s.fetch.threadReachEnd t = false := by
    by_contra hend
    rw [h.ends t ht (by simpa using hend)] at hopen
    cases hopen
  obtain ⟨i, hi⟩ : ∃ i, s.blockInfo (s.warp t).blockId = some i := by
    cases hi : s.blockInfo (s.warp t).blockId with
    | some i => exact ⟨i, rfl⟩
    | none =>
        rw [hblk.noInfo hi t hmem] at hlive
        cases hlive
  have hends := endsAtMost_takeUop s t
  obtain ⟨e, sync, hok, hentry, hfrom, hothers⟩ :=
    reachBarrier_ok (s := s.takeUop t) (t := t) (i := i) (by rw [takeUop_warp]; exact hi)
  simp only [takeUop_warp] at hok hentry hfrom hothers
  refine ⟨_, hok, ?_⟩
  set s' : BarCore := { (s.takeUop t).setWarp t { s.warp t with
    fetched := (s.warp t).fetched + 1, fetchBlocked := true } with syncInfo := sync } with hs'
  have hwarp : s'.warp t =
      { s.warp t with fetched := (s.warp t).fetched + 1, fetchBlocked := true } :=
    Function.update_self ..
  have hother : ∀ u, u ≠ t → s'.warp u = s.warp u := fun u hu =>
    (Function.update_of_ne hu ..).trans (takeUop_other s hu)
  have hone : OneWarp s s' t := ⟨hends.num, hother, by rw [hwarp], hothers, fun _ _ => rfl,
    fun u _ => congrFun hends.ended u, hends.fetchEnded⟩
  refine ⟨?_, rfl, hone, rfl, rfl, rfl, hwarp⟩
  have hbars := hw.pushed_of_open hfree
  have hpushed : pushedBars (s'.warp t) = R (s.warp t).blockId + 1 := by
    rw [hwarp]
    unfold pushedBars at hbars ⊢
    dsimp only
    rw [barriers_take_succ huop, hbar, hbars]
    rfl
  have hretired : ∀ u, retiredBars (s'.warp u) = retiredBars (s.warp u) := by
    intro u
    by_cases hu : u = t
    · rw [hu, hwarp]
      rfl
    · rw [hother u hu]
  have harrived : arrived s' (s.warp t).blockId (R (s.warp t).blockId) =
      arrived s (s.warp t).blockId (R (s.warp t).blockId) := by
    unfold arrived
    rw [hone.members]
    exact Finset.filter_congr fun u _ => by rw [hretired]
  have hgone : gone s' (s.warp t).blockId = gone s (s.warp t).blockId := by
    unfold gone
    rw [hone.members]
    exact Finset.filter_congr fun u _ => by rw [show s'.fetch.threadReachEnd u =
      s.fetch.threadReachEnd u from congrFun hends.ended u]
  obtain ⟨hcard, hdispatched, hretiredNum, htotal⟩ := hblk.info i hi
  have hpos : 0 < (members s (s.warp t).blockId).card := Finset.card_pos.mpr ⟨t, hmem⟩
  refine h.oneWarp hone (fun _ _ => Iff.rfl) h.distinct (takeUop_reachable h.threads ht hopen)
    (fun hend => ?_) ⟨?_, ?_, hpushed.le, fun _ => ?_, fun _ _ => hpushed⟩
    ⟨fun e' he' => ?_, fun hnone => ?_, ?_, fun j hj => ?_, fun hnone => ?_, fun hr => ?_⟩
  · rw [show s'.fetch.threadReachEnd t = false from
      (congrFun hends.ended t).trans hlive] at hend
    cases hend
  · rw [hwarp]
    exact hw.retired_le.trans (Nat.le_succ _)
  · rw [hretired]
    exact hw.low
  · rw [hwarp]
    exact ⟨rfl, hbars⟩
  · obtain rfl : e = e' := Option.some.inj (hentry.symm.trans he')
    rw [harrived, hone.members]
    rcases hfrom with hsync | ⟨hsync, rfl⟩
    · obtain ⟨hcount, hnum, htot, hnone, -⟩ := hblk.entry e hsync
      exact ⟨hcount, hnum, htot, hnone, t, hmem, hpushed⟩
    · refine ⟨?_, by simpa [hcard] using hdispatched, fun j hj => ?_, fun hnone => ?_, t, hmem,
        hpushed⟩
      · symm
        refine Finset.card_eq_zero.mpr (Finset.filter_eq_empty_iff.mpr fun u hu heq => ?_)
        have hle := (h.warps u (mem_members.mp hu).1).retired_le_pushed
        have hno := hblk.noEntry hsync u hu
        omega
      · exact congrArg BlockCounts.totalThreadNum (Option.some.inj (hi.symm.trans hj))
      · cases hi.symm.trans hnone
  · rw [show s'.syncInfo (s.warp t).blockId = some e from hentry] at hnone
    cases hnone
  · rw [hblk.listed]
    rcases hfrom with hsync | ⟨hsync, rfl⟩
    · rw [show s'.syncInfo (s.warp t).blockId = s.syncInfo (s.warp t).blockId from
        hentry.trans hsync.symm]
    · refine iff_of_false ?_ ?_
      · rintro ⟨e', he', -⟩
        cases hsync.symm.trans he'
      · rintro ⟨e', he', hnum⟩
        obtain rfl := Option.some.inj (hentry.symm.trans he')
        change 0 = i.totalThreadNum at hnum
        omega
  · rw [hone.members, hgone]
    exact hblk.info j hj
  · rw [show s'.blockInfo (s.warp t).blockId = some i from hi] at hnone
    cases hnone
  · rw [hone.members]
    exact hblk.full hr

/-- The uop that a free warp is asked for, if there is one. -/
theorem Phased.getUops (h : Phased s done R) (ht : t < s.fetch.uniqueScheduledThreadNum)
    (hfree : (s.warp t).fetchBlocked = false) :
    s.getUops t = .ok none ∨ ∃ uop s', s.getUops t = .ok (some s') ∧
      (s.warp t).uops[(s.warp t).fetched]? = some uop ∧ Phased s' done R ∧ FetchKept s s' ∧
      s'.warp t = { s.warp t with
        fetched := (s.warp t).fetched + 1, fetchBlocked := uop.barFetch } ∧
      ((s.warp t).fetched + 1 = (s.warp t).uops.length → s'.fetch.fetchEnded t = true) := by
  have hends := endsAtMost_takeUop s t
  have hkept : ∀ s₁ : BarCore, s₁.fetch = (s.takeUop t).fetch → OneWarp s s₁ t →
      s₁.syncDone = s.syncDone → s₁.messages = s.messages → FetchKept s s₁ := by
    intro s₁ hfetch hone hdone hmsg
    refine ⟨hone.num, by rw [hfetch, hends.ended], by rw [hfetch, hends.last], hdone, hmsg,
      fun u hu => ?_⟩
    have hut : u ≠ t := by
      rintro rfl
      rw [hfree] at hu
      cases hu
    exact ⟨hone.others u hut, hone.fetchEnded u hut⟩
  unfold BarCore.getUops
  cases hopen : s.fetch.fetchEnded t with
  | true => exact Or.inl rfl
  | false =>
      cases huop : (s.warp t).uops[(s.warp t).fetched]? with
      | none => exact Or.inl rfl
      | some uop =>
          right
          dsimp only
          cases hbar : uop.barFetch with
          | false =>
              refine ⟨uop, s.takeUop t, rfl, rfl, h.takeUop ht hopen hfree huop hbar,
                hkept _ rfl (takeUop_oneWarp s t) rfl rfl, ?_, takeUop_last⟩
              rw [takeUop_warp, hbar, ← hfree]
          | true =>
              obtain ⟨s', hok, hphased, hfetch, hone, hdone, hmsg, -, hwarp⟩ :=
                h.reachBarrier ht hopen hfree huop hbar
              refine ⟨uop, s', ?_, rfl, hphased, hkept s' hfetch hone hdone hmsg, ?_, fun hlast => ?_⟩
              · rw [if_neg Bool.false_ne_true, if_pos rfl, hok]
                rfl
              · rw [hwarp, hbar]
              · rw [hfetch]
                exact takeUop_last hlast

/-! ## A group -/

/-- Of the next `count` uops of a warp only the last one, or the last one of the warp, is a
barrier. -/
def EndsAtBarrier (w : Warp) (count : ℕ) : Prop :=
  ∀ j, j + 1 < count → ∀ uop, w.uops[w.fetched + j]? = some uop → uop.barFetch = true →
    w.fetched + j + 1 = w.uops.length

/-- A push into the queue changes nothing that the threads depend on. -/
theorem FetchKept.push (s : BarCore) (queue : List ℕ) : FetchKept s { s with queue := queue } :=
  ⟨rfl, rfl, rfl, rfl, rfl, fun _ _ => ⟨rfl, rfl⟩⟩

/-- A push into the queue changes no phase. -/
theorem Phased.push (h : Phased s done R) (queue : List ℕ) :
    Phased { s with queue := queue } done R :=
  ⟨h.warps, fun b => (h.blocks b).same ⟨rfl, fun _ _ => rfl, fun _ _ => rfl, fun _ _ => rfl⟩ rfl
    rfl Iff.rfl, h.distinct, h.threads, h.ends⟩

/-- The loop goes on behind a barrier only when the warp has no more uops. -/
theorem Phased.fetchLoop (h : Phased s done R) (ht : t < s.fetch.uniqueScheduledThreadNum)
    (room n : ℕ) (hfree : 0 < room →
      (s.warp t).fetchBlocked = false ∨ s.fetch.fetchEnded t = true)
    (hgroup : EndsAtBarrier (s.warp t) (min room (max (k.width - n) 1))) :
    ∃ s', s.fetchLoop k t room n = .ok s' ∧ Phased s' done R ∧ FetchKept s s' := by
  induction room generalizing s n with
  | zero => exact ⟨s, rfl, h, .refl s⟩
  | succ room ih =>
      unfold BarCore.fetchLoop
      rcases hfree (Nat.succ_pos _) with hopen | hend
      · rcases h.getUops ht hopen with hnone | ⟨uop, s₁, hsome, huop, h₁, hkept, hwarp, hlast⟩
        · rw [hnone]
          exact ⟨s, rfl, h, .refl s⟩
        · rw [hsome]
          show ∃ s', (if k.width ≤ n + 1 then _ else _) = Except.ok s' ∧ _
          split
          · exact ⟨_, rfl, h₁.push _, hkept.trans (.push s₁ _)⟩
          · next hwidth =>
            have hbound : ∀ j, j + 1 < min room (max (k.width - (n + 1)) 1) →
                j + 1 + 1 < min (room + 1) (max (k.width - n) 1) := by omega
            have hnext : 0 < room →
                (s₁.warp t).fetchBlocked = false ∨ s₁.fetch.fetchEnded t = true := by
              intro hroom
              cases hbar : uop.barFetch with
              | false => exact Or.inl (by rw [hwarp, hbar])
              | true => exact Or.inr (hlast (hgroup 0 (by omega) uop huop hbar))
            have hrest : EndsAtBarrier (s₁.warp t) (min room (max (k.width - (n + 1)) 1)) := by
              intro j hj v hv hbar
              rw [hwarp] at hv ⊢
              dsimp only at hv ⊢
              have hplace : (s.warp t).fetched + (j + 1) = (s.warp t).fetched + 1 + j := by omega
              have hend := hgroup (j + 1) (hbound j hj) v (by rw [hplace, hv]) hbar
              omega
            obtain ⟨s₂, hloop, h₂, hkept₂⟩ := ih (h₁.push (s₁.queue ++ [t]))
              (hkept.num.symm ▸ ht) (n + 1) hnext hrest
            exact ⟨s₂, hloop, h₂, (hkept.trans (.push s₁ _)).trans hkept₂⟩
      · refine ⟨s, ?_, h, .refl s⟩
        unfold BarCore.getUops
        rw [if_pos hend]
        rfl

/-! ## The turns of the warp schedulers -/

/-- A warp that is chosen was dispatched, and it is neither blocked nor at its end. -/
theorem select_free {turn : FetchTurn} (h : (s.select turn).1 = some t) :
    t < s.fetch.uniqueScheduledThreadNum ∧ (s.warp t).fetchBlocked = false := by
  obtain ⟨ht, hpasses⟩ := FetchCore.fetchRr_some h
  refine ⟨ht, ?_⟩
  unfold FetchCore.passes at hpasses
  simp only [Bool.and_eq_true, Bool.not_eq_true'] at hpasses
  exact hpasses.1.2

/-- Two fetch parts that differ in the arbiter only. -/
theorem Phased.arbiter (h : Phased s done R) {f : FetchCore} (hreach : FetchCore.Reachable f)
    (hnum : f.uniqueScheduledThreadNum = s.fetch.uniqueScheduledThreadNum)
    (hended : f.threadReachEnd = s.fetch.threadReachEnd)
    (hfetch : f.fetchEnded = s.fetch.fetchEnded) : Phased { s with fetch := f } done R := by
  have hmem : ∀ b, members { s with fetch := f } b = members s b := by
    intro b
    unfold members
    dsimp only
    rw [hnum]
  refine ⟨fun t ht => ?_, fun b => (h.blocks b).same
    ⟨hmem b, fun _ _ => rfl, fun _ _ => rfl, fun t _ => congrFun hended t⟩ rfl rfl Iff.rfl,
    h.distinct, hreach, fun t ht hend => ?_⟩
  · dsimp only at ht ⊢
    rw [hnum] at ht
    rw [hfetch]
    exact h.warps t ht
  · dsimp only at ht hend ⊢
    rw [hnum] at ht
    rw [hended] at hend
    rw [hfetch]
    exact h.ends t ht hend

/-- The choice of a warp changes no phase and no warp. -/
theorem Phased.select (h : Phased s done R) (turn : FetchTurn) :
    Phased (s.select turn).2 done R ∧ FetchKept s (s.select turn).2 ∧
      (s.select turn).2.warp = s.warp := by
  obtain ⟨arbiter, failed, heq⟩ := FetchCore.fetchRr_snd
    { turn.checks with fetchBlocked := fun tid => (s.warp tid).fetchBlocked } s.fetch
  have hreach := FetchCore.Reachable.step (.fetch
    { turn.checks with fetchBlocked := fun tid => (s.warp tid).fetchBlocked }) h.threads rfl
  have hfetch : (s.select turn).2.fetch.fetchEnded = s.fetch.fetchEnded :=
    (congrArg FetchCore.fetchEnded heq :)
  have hended : (s.select turn).2.fetch.threadReachEnd = s.fetch.threadReachEnd :=
    (congrArg FetchCore.threadReachEnd heq :)
  have hnum : (s.select turn).2.fetch.uniqueScheduledThreadNum =
      s.fetch.uniqueScheduledThreadNum :=
    (congrArg FetchCore.uniqueScheduledThreadNum heq :)
  have hlast : (s.select turn).2.fetch.lastTerminatedTid = s.fetch.lastTerminatedTid :=
    (congrArg FetchCore.lastTerminatedTid heq :)
  exact ⟨h.arbiter hreach hnum hended hfetch,
    ⟨hnum, hended, hlast, rfl, rfl, fun u _ => ⟨rfl, congrFun hfetch u⟩⟩, rfl⟩

/-- The chosen warp is fetched from. -/
def Fetching (k : BarKnobs) (turn : FetchTurn) (s : BarCore) : Prop :=
  turn.feStall = false ∧ k.fetchWidth < s.space k ∧ turn.ifetch = true

/-- In each turn the group of uops of the chosen warp ends at its first barrier. -/
def TurnsEnd (k : BarKnobs) : List FetchTurn → Option ℕ → BarCore → Prop
  | [], _, _ => True
  | turn :: turns, prev, s =>
      ∀ t, (s.select turn).1 = some t → prev ≠ some t →
        (Fetching k turn (s.select turn).2 →
          EndsAtBarrier (s.warp t) (min ((s.select turn).2.space k) (max k.width 1))) ∧
        ∀ s', (s.select turn).2.fetchFrom k turn t = .ok s' → TurnsEnd k turns (some t) s'

/-- Fetching from a warp keeps the phases when the group ends at a barrier. -/
theorem Phased.fetchFrom (h : Phased s done R) (ht : t < s.fetch.uniqueScheduledThreadNum)
    (hfree : (s.warp t).fetchBlocked = false) (turn : FetchTurn)
    (hgroup : Fetching k turn s →
      EndsAtBarrier (s.warp t) (min (s.space k) (max k.width 1))) :
    ∃ s', s.fetchFrom k turn t = .ok s' ∧ Phased s' done R ∧ FetchKept s s' := by
  unfold BarCore.fetchFrom
  split
  · next hroom =>
    split
    · next hifetch =>
      rw [Bool.and_eq_true, Bool.not_eq_true', decide_eq_true_eq] at hroom
      exact h.fetchLoop ht _ 0 (fun _ => Or.inl hfree) (hgroup ⟨hroom.1, hroom.2, hifetch⟩)
    · exact ⟨s, rfl, h, .refl s⟩
  · exact ⟨_, rfl, h.arbiter (.step .stall h.threads rfl) rfl rfl rfl, rfl, rfl, rfl, rfl, rfl,
      fun _ _ => ⟨rfl, rfl⟩⟩

/-- The fetch stage leaves every block in its phase. -/
theorem Phased.fetchTurns (turns : List FetchTurn) (prev : Option ℕ) (h : Phased s done R)
    (hends : TurnsEnd k turns prev s) :
    ∃ s', s.fetchTurns k turns prev = .ok s' ∧ Phased s' done R ∧ FetchKept s s' := by
  induction turns generalizing s prev with
  | nil => exact ⟨s, rfl, h, .refl s⟩
  | cons turn turns ih =>
      obtain ⟨h₁, hkept, hwarp⟩ := h.select turn
      unfold BarCore.fetchTurns
      cases hsel : s.select turn with
      | mk chosen s₁ =>
          cases chosen with
          | none =>
              rw [hsel] at h₁ hkept
              exact ⟨s₁, rfl, h₁, hkept⟩
          | some t =>
              have hselected : (s.select turn).1 = some t := by rw [hsel]
              obtain ⟨ht, hfree⟩ := select_free hselected
              unfold TurnsEnd at hends
              rw [hsel] at h₁ hkept hwarp hends
              dsimp only at h₁ hkept hwarp hends ⊢
              split
              · exact ⟨s₁, rfl, h₁, hkept⟩
              · next hprev =>
                obtain ⟨hgroup, hrest⟩ := hends t rfl hprev
                rw [← hwarp] at hfree hgroup
                rw [← hkept.num] at ht
                obtain ⟨s₂, hok, h₂, hkept₂⟩ := h₁.fetchFrom ht hfree turn hgroup
                obtain ⟨s₃, hturns, h₃, hkept₃⟩ := ih (some t) h₂ (hrest s₂ hok)
                refine ⟨s₃, ?_, h₃, (hkept.trans hkept₂).trans hkept₃⟩
                rw [hok]
                exact hturns

end BarCore

end MacSim.Analysis
