import Mathlib.Data.Finset.Card
import MacSim.Model.WarpBarriers

/-!
# The phase of a block

Between two releases the warps of a block are in one phase: each has pushed the barriers that
were released so far, and perhaps one more, behind which nothing has been pushed.  The entry of
the block counts the warps that have retired that one more barrier, and the block is on the done
list when all have.

The number of releases of each block is not in the source; the invariant says that there are
such numbers.
-/

set_option autoImplicit false

namespace MacSim.Analysis

open MacSim.Model

namespace BarCore

/-! ## Barriers of a warp -/

def barriers (l : List WarpUop) : ℕ := l.countP (·.barFetch)

/-- The barriers that a warp has pushed into the frontend queue. -/
def pushedBars (w : Warp) : ℕ := barriers (w.uops.take w.fetched)

/-- The barriers that a warp has retired. -/
def retiredBars (w : Warp) : ℕ := barriers (w.uops.take w.retired)

/-- A longer beginning has no fewer barriers. -/
theorem barriers_take_mono (l : List WarpUop) {m n : ℕ} (h : m ≤ n) :
    barriers (l.take m) ≤ barriers (l.take n) :=
  (List.take_sublist_take_left h).countP_le

/-- One more uop is one more barrier at most. -/
theorem barriers_take_succ {l : List WarpUop} {n : ℕ} {uop : WarpUop} (h : l[n]? = some uop) :
    barriers (l.take (n + 1)) = barriers (l.take n) + if uop.barFetch then 1 else 0 := by
  unfold barriers
  rw [List.take_add_one, h, List.countP_append]
  simp [List.countP_cons]

/-- A warp in the phase after `r` releases. -/
structure WarpPhase (w : Warp) (ended : Bool) (r : ℕ) : Prop where
  retired_le : w.retired ≤ w.fetched
  low : r ≤ retiredBars w
  high : pushedBars w ≤ r + 1
  waits : pushedBars w = r + 1 → w.fetchBlocked = true ∧
    barriers (w.uops.take (w.fetched - 1)) = r
  blocked : w.fetchBlocked = true → ended = false → pushedBars w = r + 1

variable {s s' : BarCore} {done done' : List ℕ} {r b t : ℕ} {R : ℕ → ℕ}

/-- No warp retires a barrier that it did not push. -/
theorem WarpPhase.retired_le_pushed {w : Warp} {ended : Bool} (h : WarpPhase w ended r) :
    retiredBars w ≤ pushedBars w :=
  barriers_take_mono _ h.retired_le

/-- A warp that is not blocked has pushed the released barriers only. -/
theorem WarpPhase.pushed_of_open {w : Warp} {ended : Bool} (h : WarpPhase w ended r)
    (hopen : w.fetchBlocked = false) : pushedBars w = r := by
  have hle := h.retired_le_pushed
  have hlow := h.low
  have hhigh := h.high
  have hne : pushedBars w ≠ r + 1 := by
    intro heq
    rw [(h.waits heq).1] at hopen
    cases hopen
  omega

/-! ## The warps of a block -/

/-- The warps of a block that were dispatched to the core. -/
def members (s : BarCore) (b : ℕ) : Finset ℕ :=
  (Finset.range s.fetch.uniqueScheduledThreadNum).filter fun t => (s.warp t).blockId = b

/-- Those that have retired the barrier that is not released yet. -/
def arrived (s : BarCore) (b r : ℕ) : Finset ℕ :=
  (members s b).filter fun t => retiredBars (s.warp t) = r + 1

/-- Those that have ended. -/
def gone (s : BarCore) (b : ℕ) : Finset ℕ :=
  (members s b).filter fun t => s.fetch.threadReachEnd t = true

/-- The members of a block are the scheduled warps with its id. -/
theorem mem_members : t ∈ members s b ↔
    t < s.fetch.uniqueScheduledThreadNum ∧ (s.warp t).blockId = b := by
  simp [members]

/-- A block after `r` releases. -/
structure BlockPhase (s : BarCore) (done : List ℕ) (r b : ℕ) : Prop where
  entry : ∀ e, s.syncInfo b = some e → e.syncCount = (arrived s b r).card ∧
    (members s b).card ≤ e.numThreadsInBlock ∧
    (∀ i, s.blockInfo b = some i → e.numThreadsInBlock = i.totalThreadNum) ∧
    (s.blockInfo b = none → e.numThreadsInBlock = (members s b).card) ∧
    ∃ t ∈ members s b, pushedBars (s.warp t) = r + 1
  noEntry : s.syncInfo b = none → ∀ t ∈ members s b, pushedBars (s.warp t) ≤ r
  listed : b ∈ done ↔ ∃ e, s.syncInfo b = some e ∧ e.syncCount = e.numThreadsInBlock
  info : ∀ i, s.blockInfo b = some i → (members s b).card = i.dispatchedThreadNum ∧
    i.dispatchedThreadNum ≤ i.totalThreadNum ∧ (gone s b).card = i.retiredThreadNum ∧
    (i.retiredThreadNum < i.totalThreadNum ∨ i.totalThreadNum = 0)
  noInfo : s.blockInfo b = none → ∀ t ∈ members s b, s.fetch.threadReachEnd t = true
  full : 1 ≤ r → (members s b).Nonempty ∧
    ∀ i, s.blockInfo b = some i → i.dispatchedThreadNum = i.totalThreadNum

/-- Every warp and every block is in its phase; `done` are the blocks still to be released. -/
structure Phased (s : BarCore) (done : List ℕ) (R : ℕ → ℕ) : Prop where
  warps : ∀ t, t < s.fetch.uniqueScheduledThreadNum →
    WarpPhase (s.warp t) (s.fetch.fetchEnded t) (R (s.warp t).blockId)
  blocks : ∀ b, BlockPhase s done (R b) b
  distinct : done.Nodup
  threads : FetchCore.Reachable s.fetch
  ends : ∀ t, t < s.fetch.uniqueScheduledThreadNum → s.fetch.threadReachEnd t = true →
    s.fetch.fetchEnded t = true

/-! ## What a block does not notice -/

/-- The two states do not differ in what concerns a block. -/
structure SameBlock (s s' : BarCore) (b : ℕ) : Prop where
  members : members s' b = members s b
  pushed : ∀ t ∈ BarCore.members s b, pushedBars (s'.warp t) = pushedBars (s.warp t)
  retired : ∀ t ∈ BarCore.members s b, retiredBars (s'.warp t) = retiredBars (s.warp t)
  ended : ∀ t ∈ BarCore.members s b, s'.fetch.threadReachEnd t = s.fetch.threadReachEnd t

/-- The warps that have arrived are counted over the members. -/
theorem SameBlock.arrived (h : SameBlock s s' b) : arrived s' b r = arrived s b r := by
  unfold BarCore.arrived
  rw [h.members]
  exact Finset.filter_congr fun t ht => by rw [h.retired t ht]

/-- The warps that have ended are counted over the members. -/
theorem SameBlock.gone (h : SameBlock s s' b) : gone s' b = gone s b := by
  unfold BarCore.gone
  rw [h.members]
  exact Finset.filter_congr fun t ht => by rw [h.ended t ht]

/-- The phase of a block depends on its members, its entry and its counters. -/
theorem BlockPhase.same (h : BlockPhase s done r b) (hsame : SameBlock s s' b)
    (hsync : s'.syncInfo b = s.syncInfo b) (hinfo : s'.blockInfo b = s.blockInfo b)
    (hdone : b ∈ done' ↔ b ∈ done) : BlockPhase s' done' r b := by
  refine ⟨fun e he => ?_, fun hnone t ht => ?_, ?_, fun i hi => ?_, fun hnone t ht => ?_,
    fun hr => ?_⟩
  · rw [hsync] at he
    obtain ⟨hcount, hnum, htotal, hgone, t, ht, hpushed⟩ := h.entry e he
    rw [hsame.arrived, hsame.members, hinfo]
    exact ⟨hcount, hnum, htotal, hgone, t, ht, by rw [hsame.pushed t ht, hpushed]⟩
  · rw [hsame.members] at ht
    rw [hsame.pushed t ht]
    exact h.noEntry (hsync ▸ hnone) t ht
  · rw [hdone, hsync]
    exact h.listed
  · rw [hinfo] at hi
    rw [hsame.members, hsame.gone]
    exact h.info i hi
  · rw [hsame.members] at ht
    rw [hsame.ended t ht]
    exact h.noInfo (hinfo ▸ hnone) t ht
  · rw [hsame.members, hinfo]
    exact h.full hr

/-- A change of one warp that leaves the other warps, and the books of the other blocks, as they
were. -/
structure OneWarp (s s' : BarCore) (t : ℕ) : Prop where
  num : s'.fetch.uniqueScheduledThreadNum = s.fetch.uniqueScheduledThreadNum
  others : ∀ u, u ≠ t → s'.warp u = s.warp u
  block : (s'.warp t).blockId = (s.warp t).blockId
  sync : ∀ b, b ≠ (s.warp t).blockId → s'.syncInfo b = s.syncInfo b
  info : ∀ b, b ≠ (s.warp t).blockId → s'.blockInfo b = s.blockInfo b
  ended : ∀ u, u ≠ t → s'.fetch.threadReachEnd u = s.fetch.threadReachEnd u
  fetchEnded : ∀ u, u ≠ t → s'.fetch.fetchEnded u = s.fetch.fetchEnded u

/-- A change of one warp changes the members of no block. -/
theorem OneWarp.members (h : OneWarp s s' t) (b : ℕ) : members s' b = members s b := by
  ext u
  rw [mem_members, mem_members, h.num]
  by_cases hu : u = t
  · rw [hu, h.block]
  · rw [h.others u hu]

/-- A change of one warp changes no other block. -/
theorem OneWarp.sameBlock (h : OneWarp s s' t) (hb : b ≠ (s.warp t).blockId) :
    SameBlock s s' b := by
  have hne : ∀ u ∈ BarCore.members s b, u ≠ t := by
    rintro u hu rfl
    exact hb (mem_members.mp hu).2.symm
  exact ⟨h.members b, fun u hu => by rw [h.others u (hne u hu)],
    fun u hu => by rw [h.others u (hne u hu)], fun u hu => h.ended u (hne u hu)⟩

/-- A change of one warp keeps the phases when its own block keeps its phase. -/
theorem Phased.oneWarp (h : Phased s done R) (hone : OneWarp s s' t)
    (hdone : ∀ b, b ≠ (s.warp t).blockId → (b ∈ done' ↔ b ∈ done)) (hdistinct : done'.Nodup)
    (hthreads : FetchCore.Reachable s'.fetch)
    (hends : s'.fetch.threadReachEnd t = true → s'.fetch.fetchEnded t = true)
    (hwarp : WarpPhase (s'.warp t) (s'.fetch.fetchEnded t) (R (s.warp t).blockId))
    (hblock : BlockPhase s' done' (R (s.warp t).blockId) (s.warp t).blockId) :
    Phased s' done' R := by
  refine ⟨fun u hu => ?_, fun b => ?_, hdistinct, hthreads, fun u hu hend => ?_⟩
  · rw [hone.num] at hu
    by_cases hut : u = t
    · rw [hut, hone.block]
      exact hwarp
    · rw [hone.others u hut, hone.fetchEnded u hut]
      exact h.warps u hu
  · by_cases hb : b = (s.warp t).blockId
    · rw [hb]
      exact hblock
    · exact (h.blocks b).same (hone.sameBlock hb) (hone.sync b hb) (hone.info b hb) (hdone b hb)
  · rw [hone.num] at hu
    by_cases hut : u = t
    · rw [hut] at hend ⊢
      exact hends hend
    · rw [hone.ended u hut] at hend
      rw [hone.fetchEnded u hut]
      exact h.ends u hu hend

end BarCore

end MacSim.Analysis
