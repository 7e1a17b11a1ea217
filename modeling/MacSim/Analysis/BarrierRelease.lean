import MacSim.Analysis.BarrierPhases
import MacSim.Analysis.ThreadWatermark
import MacSim.Computation.Outcome

/-!
# Arriving at a barrier and leaving it

The last warp of a block that retires its barrier puts the block on the done list, and the
release of the blocks on that list lets every warp of them go that has not ended: all of them
wait, and each block has its entry.
-/

set_option autoImplicit false

namespace MacSim.Analysis

open MacSim.Model MacSim.Computation

namespace BarCore

variable {s s' : BarCore} {k : BarKnobs} {done rest : List ℕ} {b t : ℕ} {R : ℕ → ℕ}

/-! ## Release -/

/-- The warps of a block that are on the list and have not ended are let go. -/
theorem foldl_releaseWarp (l : List ℕ) (hl : l.Nodup) (hwait : ∀ t ∈ l,
    s.fetch.fetchEnded t = false → (s.warp t).blockId = b → (s.warp t).fetchBlocked = true)
    (hends : ∀ t ∈ l, s.fetch.threadReachEnd t = true → s.fetch.fetchEnded t = true) :
    ∃ warp, l.foldl (BarCore.releaseWarp b) s = { s with warp := warp } ∧
      ∀ t, warp t = if t ∈ l ∧ s.fetch.fetchEnded t = false ∧ (s.warp t).blockId = b then
        { s.warp t with fetchBlocked := false } else s.warp t := by
  induction l generalizing s with
  | nil => exact ⟨s.warp, rfl, fun t => by simp⟩
  | cons u l ih =>
      obtain ⟨hu, hl⟩ := List.nodup_cons.mp hl
      have hwait' := fun t ht => hwait t (List.mem_cons_of_mem _ ht)
      have hends' := fun t ht => hends t (List.mem_cons_of_mem _ ht)
      rw [List.foldl_cons]
      by_cases hlet : s.fetch.fetchEnded u = false ∧ (s.warp u).blockId = b
      · obtain ⟨hopen, hblock⟩ := hlet
        have hlive : s.fetch.threadReachEnd u = false := by
          by_contra hend
          rw [hends u List.mem_cons_self (by simpa using hend)] at hopen
          cases hopen
        have hturn : s.releaseWarp b u = { s with
            warp := Function.update s.warp u { s.warp u with fetchBlocked := false } } := by
          unfold BarCore.releaseWarp
          simp [hopen, hlive, hblock, hwait u List.mem_cons_self hopen hblock]
        have hother : ∀ t ∈ l, Function.update s.warp u
            { s.warp u with fetchBlocked := false } t = s.warp t := by
          rintro t ht
          refine Function.update_of_ne ?_ ..
          rintro rfl
          exact hu ht
        rw [hturn]
        set s₁ : BarCore := { s with
          warp := Function.update s.warp u { s.warp u with fetchBlocked := false } } with hs₁
        have hwait₁ : ∀ t ∈ l, s₁.fetch.fetchEnded t = false → (s₁.warp t).blockId = b →
            (s₁.warp t).fetchBlocked = true := by
          intro t ht
          rw [show s₁.warp t = s.warp t from hother t ht]
          exact hwait' t ht
        obtain ⟨warp, hfold, hwarp⟩ := ih hl hwait₁ hends'
        refine ⟨warp, hfold, fun t => ?_⟩
        by_cases htu : t = u
        · subst htu
          rw [hwarp, if_neg (fun h => hu h.1), if_pos ⟨List.mem_cons_self, hopen, hblock⟩]
          exact Function.update_self ..
        · have hstay : s₁.warp t = s.warp t := Function.update_of_ne htu ..
          rw [hwarp t]
          simp only [hstay, List.mem_cons, htu, false_or]
          rfl
      · have hturn : s.releaseWarp b u = s := by
          unfold BarCore.releaseWarp
          by_cases hopen : s.fetch.fetchEnded u = false
          · simp [show (s.warp u).blockId ≠ b from fun hb => hlet ⟨hopen, hb⟩]
          · simp [show s.fetch.fetchEnded u = true by simpa using hopen]
        rw [hturn]
        obtain ⟨warp, hfold, hwarp⟩ := ih hl hwait' hends'
        refine ⟨warp, hfold, fun t => ?_⟩
        rw [hwarp t]
        by_cases htu : t = u
        · subst htu
          rw [if_neg (fun h => hu h.1), if_neg (fun h => hlet h.2)]
        · simp [htu]

/-- The warps that a release lets go. -/
def letGo (s : BarCore) (blocks : List ℕ) (t : ℕ) : Warp :=
  if t < s.fetch.uniqueScheduledThreadNum ∧ s.fetch.fetchEnded t = false ∧
      (s.warp t).blockId ∈ blocks then { s.warp t with fetchBlocked := false }
  else s.warp t

/-- A released warp keeps its counts. -/
theorem letGo_bars (s : BarCore) (blocks : List ℕ) (t : ℕ) :
    (letGo s blocks t).blockId = (s.warp t).blockId ∧
      pushedBars (letGo s blocks t) = pushedBars (s.warp t) ∧
      retiredBars (letGo s blocks t) = retiredBars (s.warp t) ∧
      (letGo s blocks t).retired = (s.warp t).retired ∧
      (letGo s blocks t).fetched = (s.warp t).fetched ∧
      (letGo s blocks t).uops = (s.warp t).uops := by
  unfold letGo
  split <;> exact ⟨rfl, rfl, rfl, rfl, rfl, rfl⟩

/-- All warps of a block on the done list have retired their barrier. -/
theorem Phased.all_arrived (h : Phased s done R) (hb : b ∈ done) :
    (members s b).Nonempty ∧ (∀ t ∈ members s b, retiredBars (s.warp t) = R b + 1 ∧
      pushedBars (s.warp t) = R b + 1) ∧
    ∀ i, s.blockInfo b = some i → i.dispatchedThreadNum = i.totalThreadNum := by
  have hblk := h.blocks b
  obtain ⟨e, he, hfull⟩ := hblk.listed.mp hb
  obtain ⟨hcount, hnum, htotal, -, t₀, ht₀, -⟩ := hblk.entry e he
  have hall : arrived s b (R b) = members s b :=
    Finset.eq_of_subset_of_card_le (Finset.filter_subset _ _) (by omega)
  refine ⟨⟨t₀, ht₀⟩, fun t ht => ?_, fun i hi => ?_⟩
  · have hw := h.warps t (mem_members.mp ht).1
    rw [(mem_members.mp ht).2] at hw
    have hretired : retiredBars (s.warp t) = R b + 1 := by
      rw [← hall] at ht
      exact (Finset.mem_filter.mp ht).2
    have hle := hw.retired_le_pushed
    have hhigh := hw.high
    exact ⟨hretired, by omega⟩
  · have hnumTotal := htotal i hi
    obtain ⟨hcard, hle, -⟩ := hblk.info i hi
    rw [hall] at hcount
    omega

/-- One block is released. -/
theorem Phased.releaseBlock (h : Phased s (b :: rest) R) :
    s.releaseBlock b = { s with
        warp := letGo s [b], syncInfo := Function.update s.syncInfo b none } ∧
      Phased (s.releaseBlock b) rest (Function.update R b (R b + 1)) := by
  have hblk := h.blocks b
  obtain ⟨e, he, -⟩ := hblk.listed.mp List.mem_cons_self
  obtain ⟨hmember, harrived, htotal⟩ := h.all_arrived List.mem_cons_self
  have hwater := FetchCore.watermark_of_reachable h.threads
  have hvisited : ∀ t, t < s.fetch.uniqueScheduledThreadNum → s.fetch.fetchEnded t = false →
      t ∈ s.fetch.visited := by
    intro t ht hopen
    refine hwater.visited ht fun hend => ?_
    rw [h.ends t ht hend.2] at hopen
    cases hopen
  have hlt : ∀ t ∈ s.fetch.visited, t < s.fetch.uniqueScheduledThreadNum := by
    intro t ht
    have hrange := List.mem_range'_1.mp ht
    omega
  obtain ⟨warp, hfold, hwarp⟩ := foldl_releaseWarp (s := s) (b := b) s.fetch.visited
    List.nodup_range' (fun t ht hopen hb => by
      have hw := h.warps t (hlt t ht)
      rw [hb] at hw
      exact (hw.waits (harrived t (mem_members.mpr ⟨hlt t ht, hb⟩)).2).1)
    fun t ht hend => h.ends t (hlt t ht) hend
  have hletGo : warp = letGo s [b] := by
    funext t
    rw [hwarp t]
    unfold letGo
    refine if_congr ?_ rfl rfl
    rw [List.mem_singleton]
    exact ⟨fun ⟨hv, hopen, hb⟩ => ⟨hlt t hv, hopen, hb⟩,
      fun ⟨ht, hopen, hb⟩ => ⟨hvisited t ht hopen, hopen, hb⟩⟩
  have heq : s.releaseBlock b = { s with
      warp := letGo s [b], syncInfo := Function.update s.syncInfo b none } := by
    unfold BarCore.releaseBlock
    rw [hfold, hletGo]
    dsimp only
    rw [he]
  refine ⟨heq, ?_⟩
  rw [heq]
  set s' : BarCore := { s with
    warp := letGo s [b], syncInfo := Function.update s.syncInfo b none } with hs'
  have hmem : ∀ c, members s' c = members s c := by
    intro c
    ext t
    rw [mem_members, mem_members]
    exact and_congr_right fun _ => by rw [show (s'.warp t).blockId = _ from (letGo_bars s [b] t).1]
  have hsame : ∀ c, SameBlock s s' c := fun c =>
    ⟨hmem c, fun t _ => (letGo_bars s [b] t).2.1, fun t _ => (letGo_bars s [b] t).2.2.1,
      fun _ _ => rfl⟩
  refine ⟨fun t ht => ?_, fun c => ?_, h.distinct.of_cons, h.threads, h.ends⟩
  · have hw := h.warps t ht
    obtain ⟨hblock, hpushed, hretired, hr, hf, huops⟩ := letGo_bars s [b] t
    show WarpPhase (letGo s [b] t) _ _
    rw [hblock]
    by_cases hb : (s.warp t).blockId = b
    · obtain ⟨hretiredBars, hpushedBars⟩ := harrived t (mem_members.mpr ⟨ht, hb⟩)
      rw [hb, Function.update_self]
      refine ⟨by rw [hr, hf]; exact hw.retired_le, by rw [hretired, hretiredBars],
        by rw [hpushed, hpushedBars]; exact Nat.le_succ _, fun heq => ?_, fun hblocked hopen => ?_⟩
      · rw [hpushed, hpushedBars] at heq
        omega
      · unfold letGo at hblocked
        rw [if_pos ⟨ht, hopen, List.mem_singleton.mpr hb⟩] at hblocked
        cases hblocked
    · rw [Function.update_of_ne hb]
      have hstay : letGo s [b] t = s.warp t :=
        if_neg fun hgo => hb (List.mem_singleton.mp hgo.2.2)
      rw [hstay]
      exact hw
  · by_cases hc : c = b
    · subst hc
      rw [Function.update_self]
      refine ⟨fun e' he' => ?_, fun _ t ht => ?_, iff_of_false (List.nodup_cons.mp h.distinct).1 ?_,
        fun i hi => ?_, fun hnone t ht => ?_, fun _ => ?_⟩
      · cases (Function.update_self ..).symm.trans he'
      · rw [hmem] at ht
        rw [(hsame c).pushed t ht]
        exact (harrived t ht).2.le
      · rintro ⟨e', he', -⟩
        cases (Function.update_self ..).symm.trans he'
      · rw [hmem, (hsame c).gone]
        exact hblk.info i hi
      · rw [hmem] at ht
        exact hblk.noInfo hnone t ht
      · rw [hmem]
        exact ⟨hmember, htotal⟩
    · rw [Function.update_of_ne hc]
      refine (h.blocks c).same (hsame c) (Function.update_of_ne hc ..) rfl ?_
      rw [List.mem_cons, or_iff_right hc]

/-- The release of all listed blocks. -/
theorem Phased.foldl_releaseBlock (done : List ℕ) (h : Phased s done R) :
    (∃ sync, done.foldl BarCore.releaseBlock s = { s with
        warp := letGo s done, syncInfo := sync } ∧
      ∀ b, sync b = if b ∈ done then none else s.syncInfo b) ∧
    ∃ R', Phased (done.foldl BarCore.releaseBlock s) [] R' := by
  induction done generalizing s R with
  | nil =>
      have hstay : letGo s [] = s.warp := funext fun t => if_neg fun hgo => List.not_mem_nil hgo.2.2
      exact ⟨⟨s.syncInfo, by rw [hstay]; rfl, fun b => (if_neg List.not_mem_nil).symm⟩, R, h⟩
  | cons b done ih =>
      obtain ⟨heq, h₁⟩ := h.releaseBlock
      obtain ⟨⟨sync, hfold, hsync⟩, R', h'⟩ := ih h₁
      rw [List.foldl_cons]
      refine ⟨⟨sync, ?_, fun c => ?_⟩, R', h'⟩
      · rw [hfold, heq]
        have hgo : letGo { s with
            warp := letGo s [b], syncInfo := Function.update s.syncInfo b none } done =
            letGo s (b :: done) := by
          funext t
          show (if t < s.fetch.uniqueScheduledThreadNum ∧ s.fetch.fetchEnded t = false ∧
              (letGo s [b] t).blockId ∈ done then { letGo s [b] t with fetchBlocked := false }
            else letGo s [b] t) = _
          rw [(letGo_bars s [b] t).1]
          unfold letGo
          simp only [List.mem_cons]
          split_ifs <;> first | rfl | (exfalso; tauto)
        rw [hgo]
      · rw [hsync c, heq]
        dsimp only
        by_cases hc : c = b
        · subst hc
          simp
        · simp [hc]

/-! ## Retirement -/

/-- `synch_thread` finds the entry of the block, and the warp is counted in it. -/
theorem Phased.retireBar (h : Phased s s.syncDone R) (ht : t < s.fetch.uniqueScheduledThreadNum)
    (hlt : (s.warp t).retired < (s.warp t).fetched) {uop : WarpUop}
    (huop : (s.warp t).uops[(s.warp t).retired]? = some uop) (hbar : uop.barFetch = true)
    (insts : ℕ) :
    ∃ s', (s.setWarp t { s.warp t with
        retired := (s.warp t).retired + 1, instsRetired := insts }).synchThread
          (s.warp t).blockId = .ok s' ∧ Phased s' s'.syncDone R ∧
      s'.fetch = s.fetch ∧ s'.blockInfo = s.blockInfo ∧ (s'.warp t).blockId = (s.warp t).blockId ∧
      (s'.warp t).uops = (s.warp t).uops ∧ (s'.warp t).retired = (s.warp t).retired + 1 := by
  set w : Warp := { s.warp t with
    retired := (s.warp t).retired + 1, instsRetired := insts } with hw'
  have hw := h.warps t ht
  have hblk := h.blocks (s.warp t).blockId
  have hmem : t ∈ members s (s.warp t).blockId := mem_members.mpr ⟨ht, rfl⟩
  have hretired : retiredBars w = retiredBars (s.warp t) + 1 := by
    unfold retiredBars
    rw [hw']
    dsimp only
    rw [barriers_take_succ huop, hbar]
    rfl
  have hle : retiredBars w ≤ pushedBars (s.warp t) := barriers_take_mono _ hlt
  have hlow := hw.low
  have hhigh := hw.high
  have hold : retiredBars (s.warp t) = R (s.warp t).blockId := by omega
  have hpushed : pushedBars (s.warp t) = R (s.warp t).blockId + 1 := by omega
  obtain ⟨e, he⟩ : ∃ e, s.syncInfo (s.warp t).blockId = some e := by
    cases hsync : s.syncInfo (s.warp t).blockId with
    | some e => exact ⟨e, rfl⟩
    | none =>
        have hno := hblk.noEntry hsync t hmem
        omega
  obtain ⟨hcount, hnum, htotal, hnone, -⟩ := hblk.entry e he
  have hnot : t ∉ arrived s (s.warp t).blockId (R (s.warp t).blockId) := by
    intro hin
    have heq := (Finset.mem_filter.mp hin).2
    omega
  have hshort : e.syncCount < e.numThreadsInBlock := by
    have hsub : arrived s (s.warp t).blockId (R (s.warp t).blockId) ⊂
        members s (s.warp t).blockId :=
      (Finset.ssubset_iff_of_subset (Finset.filter_subset _ _)).mpr ⟨t, hmem, hnot⟩
    have hcard := Finset.card_lt_card hsub
    omega
  have hout : (s.warp t).blockId ∉ s.syncDone := by
    rw [hblk.listed]
    rintro ⟨e', he', hfull⟩
    obtain rfl := Option.some.inj (he.symm.trans he')
    omega
  set s' : BarCore := { s.setWarp t w with
    syncInfo := Function.update s.syncInfo (s.warp t).blockId
      (some { e with syncCount := e.syncCount + 1 })
    syncDone := if e.syncCount + 1 = e.numThreadsInBlock then s.syncDone ++ [(s.warp t).blockId]
      else s.syncDone } with hs'
  have hwarp : s'.warp t = w := Function.update_self ..
  have hother : ∀ u, u ≠ t → s'.warp u = s.warp u := fun u hu => Function.update_of_ne hu ..
  have hone : OneWarp s s' t := ⟨rfl, hother, by rw [hwarp], fun b hb => Function.update_of_ne hb ..,
    fun _ _ => rfl, fun _ _ => rfl, fun _ _ => rfl⟩
  have hsync : s'.syncInfo (s.warp t).blockId = some { e with syncCount := e.syncCount + 1 } :=
    Function.update_self ..
  have hpushed' : ∀ u, pushedBars (s'.warp u) = pushedBars (s.warp u) := by
    intro u
    by_cases hu : u = t
    · rw [hu, hwarp]
      rfl
    · rw [hother u hu]
  have harrived : arrived s' (s.warp t).blockId (R (s.warp t).blockId) =
      insert t (arrived s (s.warp t).blockId (R (s.warp t).blockId)) := by
    ext u
    unfold arrived
    rw [hone.members, Finset.mem_insert, Finset.mem_filter, Finset.mem_filter]
    by_cases hu : u = t
    · rw [hu, hwarp, hretired, hold]
      simp [hmem]
    · rw [hother u hu]
      simp [hu]
  have hgone : gone s' (s.warp t).blockId = gone s (s.warp t).blockId := by
    unfold gone
    rw [hone.members]
    rfl
  refine ⟨s', ?_, h.oneWarp hone (fun b hb => ?_) ?_ h.threads (h.ends t ht)
    ⟨?_, ?_, ?_, fun heq => ?_, fun hblocked hopen => ?_⟩
    ⟨fun e' he' => ?_, fun hnone' => ?_, ?_, fun i hi => ?_, fun hno u hu => ?_, fun hr => ?_⟩,
    rfl, rfl, by rw [hwarp], by rw [hwarp], by rw [hwarp]⟩
  · unfold BarCore.synchThread
    rw [show (s.setWarp t w).syncInfo (s.warp t).blockId = some e from he]
    rfl
  · show b ∈ (if e.syncCount + 1 = e.numThreadsInBlock then _ else _) ↔ _
    split
    · rw [List.mem_append, List.mem_singleton, or_iff_left hb]
    · exact Iff.rfl
  · show (if e.syncCount + 1 = e.numThreadsInBlock then _ else _ : List ℕ).Nodup
    split
    · exact List.nodup_append.mpr ⟨h.distinct, List.nodup_singleton _, fun a ha b hb => by
        rw [List.mem_singleton] at hb
        rintro rfl
        exact hout (hb ▸ ha)⟩
    · exact h.distinct
  · rw [hwarp]
    exact hlt
  · rw [hwarp]
    omega
  · rw [hpushed']
    exact hhigh
  · rw [hwarp]
    exact hw.waits hpushed
  · exact (hpushed' t).trans hpushed
  · obtain rfl := Option.some.inj (hsync.symm.trans he')
    rw [harrived, Finset.card_insert_of_notMem hnot, hone.members]
    exact ⟨by rw [← hcount], hnum, htotal, hnone, t, hmem, (hpushed' t).trans hpushed⟩
  · cases hsync.symm.trans hnone'
  · show _ ∈ (if e.syncCount + 1 = e.numThreadsInBlock then _ else _) ↔ _
    rw [hsync]
    by_cases hfull : e.syncCount + 1 = e.numThreadsInBlock
    · rw [if_pos hfull]
      exact iff_of_true (List.mem_append_right _ (List.mem_singleton.mpr rfl)) ⟨_, rfl, hfull⟩
    · rw [if_neg hfull]
      refine iff_of_false hout ?_
      rintro ⟨e', he', heq⟩
      obtain rfl := Option.some.inj he'
      exact hfull heq
  · rw [hone.members, hgone]
    exact hblk.info i hi
  · rw [hone.members] at hu
    exact hblk.noInfo hno u hu
  · rw [hone.members]
    exact hblk.full hr

/-- A uop that is no barrier retires. -/
theorem Phased.retirePlain (h : Phased s s.syncDone R) (ht : t < s.fetch.uniqueScheduledThreadNum)
    (hlt : (s.warp t).retired < (s.warp t).fetched) {uop : WarpUop}
    (huop : (s.warp t).uops[(s.warp t).retired]? = some uop) (hbar : uop.barFetch = false)
    (insts : ℕ) :
    Phased (s.setWarp t { s.warp t with
      retired := (s.warp t).retired + 1, instsRetired := insts }) s.syncDone R := by
  set w : Warp := { s.warp t with
    retired := (s.warp t).retired + 1, instsRetired := insts } with hw'
  have hw := h.warps t ht
  have hretired : retiredBars w = retiredBars (s.warp t) := by
    unfold retiredBars
    rw [hw']
    dsimp only
    rw [barriers_take_succ huop, hbar]
    rfl
  have hwarp : (s.setWarp t w).warp t = w := Function.update_self ..
  have hother : ∀ u, u ≠ t → (s.setWarp t w).warp u = s.warp u := fun u hu =>
    Function.update_of_ne hu ..
  have hone : OneWarp s (s.setWarp t w) t := ⟨rfl, hother, by rw [hwarp], fun _ _ => rfl,
    fun _ _ => rfl, fun _ _ => rfl, fun _ _ => rfl⟩
  have hsame : SameBlock s (s.setWarp t w) (s.warp t).blockId := by
    refine ⟨hone.members _, fun u _ => ?_, fun u _ => ?_, fun _ _ => rfl⟩
    · by_cases hu : u = t
      · rw [hu, hwarp]
        rfl
      · rw [hother u hu]
    · by_cases hu : u = t
      · rw [hu, hwarp, hretired]
      · rw [hother u hu]
  refine h.oneWarp hone (fun _ _ => Iff.rfl) h.distinct h.threads (h.ends t ht) ?_
    ((h.blocks _).same hsame rfl rfl Iff.rfl)
  rw [hwarp]
  exact ⟨hlt, by rw [hretired]; exact hw.low, hw.high, hw.waits, hw.blocked⟩

/-- A warp ends.  The information of a block goes with the last of its warps. -/
theorem Phased.terminateThread (h : Phased s done R) (ht : t < s.fetch.uniqueScheduledThreadNum)
    (hlive : s.fetch.threadReachEnd t = false) :
    Meets (s.terminateThread t) (fun s' => Phased s' done R ∧ s'.syncDone = s.syncDone ∧
      s'.warp = s.warp ∧
      s'.fetch.uniqueScheduledThreadNum = s.fetch.uniqueScheduledThreadNum)
      (· = .noProgress) := by
  have hw := h.warps t ht
  have hblk := h.blocks (s.warp t).blockId
  have hmem : t ∈ members s (s.warp t).blockId := mem_members.mpr ⟨ht, rfl⟩
  unfold BarCore.terminateThread
  dsimp only
  cases hterm : s.fetch.terminate t with
  | none => exact rfl
  | some fetch =>
      cases hinfo : s.blockInfo (s.warp t).blockId with
      | none =>
          rw [hblk.noInfo hinfo t hmem] at hlive
          cases hlive
      | some i =>
          dsimp only
          obtain ⟨hnum, hreach, hended, hends, hother⟩ :
              fetch.uniqueScheduledThreadNum = s.fetch.uniqueScheduledThreadNum ∧
              fetch.threadReachEnd = Function.update s.fetch.threadReachEnd t true ∧
              fetch.fetchEnded t = true ∧
              FetchCore.Reachable fetch ∧
              ∀ u, u ≠ t → fetch.fetchEnded u = s.fetch.fetchEnded u := by
            have hstep : s.fetch.step (.terminate t) = some fetch :=
              (if_pos ⟨ht, hlive⟩).trans hterm
            unfold FetchCore.terminate at hterm
            dsimp only at hterm
            split at hterm
            · cases hterm
              by_cases hend : (s.fetch.reachEnd t).fetchEnded t = true
              · rw [if_pos hend] at hstep ⊢
                exact ⟨rfl, rfl, hend, .step _ h.threads hstep, fun _ _ => rfl⟩
              · rw [if_neg hend] at hstep ⊢
                exact ⟨rfl, rfl, Function.update_self .., .step _ h.threads hstep,
                  fun u hu => Function.update_of_ne hu ..⟩
            · cases hterm
          set s' : BarCore := { s with
            fetch := fetch
            blockInfo := Function.update s.blockInfo (s.warp t).blockId
              (if i.retiredThreadNum + 1 = i.totalThreadNum then none
                else some { i with retiredThreadNum := i.retiredThreadNum + 1 }) } with hs'
          have hone : OneWarp s s' t := ⟨hnum, fun _ _ => rfl, rfl, fun _ _ => rfl,
            fun b hb => Function.update_of_ne hb .., fun u hu => by
              rw [show s'.fetch.threadReachEnd = _ from hreach]
              exact Function.update_of_ne hu .., hother⟩
          have hgone : gone s' (s.warp t).blockId = insert t (gone s (s.warp t).blockId) := by
            ext u
            unfold gone
            rw [hone.members, Finset.mem_insert, Finset.mem_filter, Finset.mem_filter,
              show s'.fetch.threadReachEnd = _ from hreach]
            by_cases hu : u = t
            · rw [hu, Function.update_self]
              simp [hmem]
            · rw [Function.update_of_ne hu]
              simp [hu]
          have hnew : t ∉ gone s (s.warp t).blockId := by
            intro hin
            rw [(Finset.mem_filter.mp hin).2] at hlive
            cases hlive
          obtain ⟨hcard, hdispatched, hretired, htotal⟩ := hblk.info i hinfo
          have hpos : 0 < (members s (s.warp t).blockId).card := Finset.card_pos.mpr ⟨t, hmem⟩
          have hcardGone := Finset.card_insert_of_notMem hnew
          rw [← hgone] at hcardGone
          have harrived : arrived s' (s.warp t).blockId (R (s.warp t).blockId) =
              arrived s (s.warp t).blockId (R (s.warp t).blockId) := by
            unfold arrived
            rw [hone.members]
          have hentry : s'.blockInfo (s.warp t).blockId =
              if i.retiredThreadNum + 1 = i.totalThreadNum then none
                else some { i with retiredThreadNum := i.retiredThreadNum + 1 } :=
            Function.update_self ..
          have hsub : (gone s' (s.warp t).blockId).card ≤ (members s' (s.warp t).blockId).card :=
            Finset.card_le_card (Finset.filter_subset _ _)
          rw [hone.members] at hsub
          refine ⟨?_, rfl, rfl, hnum⟩
          refine h.oneWarp hone (fun _ _ => Iff.rfl) h.distinct hends (fun _ => hended)
            ⟨hw.retired_le, hw.low, hw.high, hw.waits, fun _ hopen => ?_⟩
            ⟨fun e he => ?_, fun hnone => ?_, hblk.listed, fun j hj => ?_, fun hno u hu => ?_,
              fun hr => ?_⟩
          · rw [show s'.fetch.fetchEnded t = true from hended] at hopen
            cases hopen
          · obtain ⟨hcount, hle, htot, -, u, hu, hpushed⟩ := hblk.entry e he
            have hnumTotal := htot i hinfo
            rw [harrived, hone.members]
            refine ⟨hcount, hle, fun j hj => ?_, fun hno => ?_, u, hu, hpushed⟩
            · rw [hentry] at hj
              split at hj
              · cases hj
              · obtain rfl := Option.some.inj hj
                exact hnumTotal
            · rw [hentry] at hno
              split at hno
              · omega
              · cases hno
          · rw [hone.members]
            exact hblk.noEntry hnone
          · rw [hentry] at hj
            split at hj
            · cases hj
            · obtain rfl := Option.some.inj hj
              rw [hone.members]
              exact ⟨hcard, hdispatched, by rw [hcardGone, hretired], by dsimp only; omega⟩
          · rw [hentry] at hno
            split at hno
            · have hall : gone s' (s.warp t).blockId = members s' (s.warp t).blockId :=
                Finset.eq_of_subset_of_card_le (Finset.filter_subset _ _)
                  (by rw [hone.members]; omega)
              rw [← hall] at hu
              exact (Finset.mem_filter.mp hu).2
            · cases hno
          · obtain ⟨hne, hfull⟩ := hblk.full hr
            rw [hone.members]
            refine ⟨hne, fun j hj => ?_⟩
            rw [hentry] at hj
            split at hj
            · cases hj
            · obtain rfl := Option.some.inj hj
              exact hfull i hinfo

end BarCore

end MacSim.Analysis
