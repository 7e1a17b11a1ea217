import Mathlib.Logic.Relation
import Mathlib.Tactic

/-!
# Uses and their definitions

In a sequence of operations that read and write registers, an operation depends on another when
it reads a register whose most recent earlier writer is the other one, or when it depends on one
that does.
-/

set_option autoImplicit false

namespace MacSim.Computation

variable {ρ : Type} {reads writes : ℕ → List ρ} {i j : ℕ}

/-- The operation `j` reads a register whose most recent earlier writer is `i`. -/
def Feeds (reads writes : ℕ → List ρ) (i j : ℕ) : Prop :=
  i < j ∧ ∃ reg ∈ reads j, reg ∈ writes i ∧ ∀ l, i < l → l < j → reg ∉ writes l

/-- The operation `j` depends on `i`. -/
def Ancestor (reads writes : ℕ → List ρ) : ℕ → ℕ → Prop :=
  Relation.TransGen (Feeds reads writes)

/-- An operation comes after those that it depends on. -/
theorem Ancestor.lt (h : Ancestor reads writes i j) : i < j := by
  induction h with
  | single hfirst => exact hfirst.1
  | tail _ hlast ih => exact ih.trans hlast.1

/-- What the next operation overwrites feeds no other. -/
theorem Feeds.eq_succ (h : Feeds reads writes i j)
    (hover : ∀ reg ∈ writes i, reg ∈ writes (i + 1)) : j = i + 1 := by
  obtain ⟨hlt, reg, -, hwrite, hnone⟩ := h
  by_contra hne
  exact hnone (i + 1) (by omega) (by omega) (hover reg hwrite)

/-- An operation that the next one overwrites has dependents only through that one. -/
theorem Ancestor.feeds_succ (h : Ancestor reads writes i j)
    (hover : ∀ reg ∈ writes i, reg ∈ writes (i + 1)) : Feeds reads writes i (i + 1) := by
  obtain ⟨m, hfirst, -⟩ := Relation.TransGen.head'_iff.mp h
  rw [hfirst.eq_succ hover] at hfirst
  exact hfirst

end MacSim.Computation
