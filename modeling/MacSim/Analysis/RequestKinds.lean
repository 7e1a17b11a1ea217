import MacSim.Analysis.RequestBooks

/-!
# Every list holds its kind of requests

The three ways to create a request give three kinds that never mix.  An entry of an MSHR is
never a write-back and never a store that is written through; a request of the pool always is
such a store; a write-back stays a write-back.  Only MSHR entries are merged, promoted or put
on a free list, and only requests of the pool go back to the pool.  `Kinds` is this
invariant, and it holds in every state of every run.

Along the way the log and the two counters of created requests only grow.
-/

set_option autoImplicit false

namespace MacSim.Analysis

open MacSim.Model MacSim.Computation

/-- An entry created for an MSHR. -/
def IsEntry : ReqId → Prop
  | .mshr _ _ => True
  | _ => False

/-- Whether a request has been created. -/
def Created (b : Books) : ReqId → Prop
  | .mshr _ _ => True
  | .pool n => n < b.nextPool
  | .wb n => n < b.nextWb

/-- What may be in a list. -/
def Fits (b : Books) : Loc → ReqId → Prop
  | .free _, r => IsEntry r
  | .merged p, r => IsEntry p ∧ IsEntry r
  | .pool, r => ∃ n < b.nextPool, r = .pool n
  | _, r => Created b r

/-- The kinds of requests do not mix. -/
structure Kinds (cfg : MemConfig) (b : Books) : Prop where
  entry : ∀ c i, (b.card (.mshr c i)).type ≠ .wb ∧
    cfg.writeThrough (b.card (.mshr c i)).type (b.card (.mshr c i)).acc = false
  pool : ∀ n < b.nextPool, cfg.writeThrough (b.card (.pool n)).type (b.card (.pool n)).acc = true
  wb : ∀ n < b.nextWb, (b.card (.wb n)).type = .wb
  mshr : ∀ c, ∀ r ∈ b.mshr c, IsEntry r
  lists : ∀ k, ∀ r ∈ b.held k, Fits b k r

/-- The log and the counters grow. -/
structure Grows (s s' : Mem) : Prop where
  log : s.log <:+ s'.log
  nextPool : s.nextPool ≤ s'.nextPool
  nextWb : s.nextWb ≤ s'.nextWb

/-- The log and the counters grow to what they are. -/
theorem Grows.refl (s : Mem) : Grows s s := ⟨List.suffix_refl _, le_rfl, le_rfl⟩

/-- Growing is transitive. -/
theorem Grows.trans {s t u : Mem} (h : Grows s t) (h' : Grows t u) : Grows s u :=
  ⟨h.log.trans h'.log, h.nextPool.trans h'.nextPool, h.nextWb.trans h'.nextWb⟩

/-- What was created stays created. -/
theorem Grows.created {s s' : Mem} (h : Grows s s') {r : ReqId} (hr : Created (books s) r) :
    Created (books s') r := by
  cases r with
  | mshr c i => trivial
  | pool n => exact lt_of_lt_of_le hr h.nextPool
  | wb n => exact lt_of_lt_of_le hr h.nextWb

section

variable {cfg : MemConfig}

/-- A list is replaced by one with no new kinds. -/
theorem Kinds.setHeld {b : Books} (hk : Kinds cfg b) {k : Loc} {l : List ReqId}
    (hl : ∀ r ∈ l, Fits b k r) : Kinds cfg { b with held := Function.update b.held k l } where
  entry := hk.entry
  pool := hk.pool
  wb := hk.wb
  mshr := hk.mshr
  lists := by
    intro m r hr
    by_cases hm : m = k
    · subst hm
      rw [show ({ b with held := Function.update b.held m l } : Books).held m = l from
        Function.update_self _ _ _] at hr
      exact hl r hr
    · rw [show ({ b with held := Function.update b.held k l } : Books).held m = b.held m from
        Function.update_of_ne hm _ _] at hr
      exact hk.lists m r hr

/-- A card is replaced by one of the same kind. -/
theorem Kinds.setCard {b : Books} (hk : Kinds cfg b) {r : ReqId} {c : Card}
    (hentry : IsEntry r → c.type ≠ .wb ∧ cfg.writeThrough c.type c.acc = false)
    (hother : ¬ IsEntry r → c.type = (b.card r).type ∧ c.acc = (b.card r).acc) :
    Kinds cfg { b with card := Function.update b.card r c } where
  entry := by
    intro core i
    by_cases hr : .mshr core i = r
    · subst hr
      simpa using hentry trivial
    · simpa [hr] using hk.entry core i
  pool := by
    intro n hn
    by_cases hr : .pool n = r
    · subst hr
      have := hother (by simp [IsEntry])
      simpa [this] using hk.pool n hn
    · simpa [hr] using hk.pool n hn
  wb := by
    intro n hn
    by_cases hr : .wb n = r
    · subst hr
      have := hother (by simp [IsEntry])
      simpa [this] using hk.wb n hn
    · simpa [hr] using hk.wb n hn
  mshr := hk.mshr
  lists := hk.lists

/-- An MSHR of entries keeps the kinds apart. -/
theorem Kinds.setMshr {b : Books} (hk : Kinds cfg b) (core : ℕ) {l : List ReqId}
    (hl : ∀ r ∈ l, IsEntry r) : Kinds cfg { b with mshr := Function.update b.mshr core l } where
  entry := hk.entry
  pool := hk.pool
  wb := hk.wb
  mshr := by
    intro c r hr
    by_cases hc : c = core
    · subst hc
      rw [show ({ b with mshr := Function.update b.mshr c l } : Books).mshr c = l from
        Function.update_self _ _ _] at hr
      exact hl r hr
    · rw [show ({ b with mshr := Function.update b.mshr core l } : Books).mshr c = b.mshr c from
        Function.update_of_ne hc _ _] at hr
      exact hk.mshr c r hr
  lists := hk.lists

end

end MacSim.Analysis
