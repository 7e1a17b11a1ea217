import Mathlib.Order.Defs.Unbundled
import Mathlib.Tactic

/-!
# Programs that may fault, as moves of a state

A program over a state returns `Except`.  Its outcome is read against a reflexive and transitive
relation of moves: a result is a state that the moves reach, and a fault is a state that the
moves reach and where the fault is due.  The two loop rules are the ones of `foldl` and `foldlM`.
-/

set_option autoImplicit false

namespace MacSim.Computation

variable {σ ε α : Type} {R : σ → σ → Prop} {B : σ → ε → Prop} [Std.Refl R] [IsTrans σ R]

/-- The outcome `x` from `s` is explained by moves `R` and faults `B`. -/
def Traces (R : σ → σ → Prop) (B : σ → ε → Prop) (s : σ) : Except ε σ → Prop
  | .ok s' => R s s'
  | .error e => ∃ m, R s m ∧ B m e

namespace Traces

omit [Std.Refl R] in
/-- What happens after a move is explained from before it. -/
theorem of_move {s m : σ} {x : Except ε σ} (hm : R s m)
    (h : Traces R B m x) : Traces R B s x := by
  cases x with
  | ok s' => exact trans_of R hm h
  | error e =>
      obtain ⟨m', hm', hb⟩ := h
      exact ⟨m', trans_of R hm hm', hb⟩

omit [Std.Refl R] in
/-- Sequencing. -/
theorem bind {s : σ} {x : Except ε σ} {g : σ → Except ε σ}
    (hx : Traces R B s x) (hg : ∀ s', Traces R B s' (g s')) : Traces R B s (x >>= g) := by
  cases x with
  | ok s' => exact of_move hx (hg s')
  | error e => exact hx

/-- The loop rule. -/
theorem foldlM {f : σ → α → Except ε σ} {l : List α}
    (h : ∀ s, ∀ a ∈ l, Traces R B s (f s a)) (s : σ) : Traces R B s (l.foldlM f s) := by
  induction l generalizing s with
  | nil => exact refl_of R s
  | cons a l ih =>
      rw [List.foldlM_cons]
      exact bind (h s a (by simp)) (ih fun s b hb => h s b (by simp [hb]))

end Traces

/-- The loop rule for a loop that cannot fault. -/
theorem moves_foldl {f : σ → α → σ} {l : List α}
    (h : ∀ s, ∀ a ∈ l, R s (f s a)) (s : σ) : R s (l.foldl f s) := by
  induction l generalizing s with
  | nil => exact refl_of R s
  | cons a l ih => exact trans_of R (h s a (by simp)) (ih (fun s b hb => h s b (by simp [hb])) _)

omit [Std.Refl R] [IsTrans σ R] in
/-- A program succeeds as soon as an observation of its result evaluates. -/
theorem exists_ok_of_observed {β : Type} {x : Except ε σ} {g : σ → β} {b : β}
    (h : x.toOption.map g = some b) : ∃ s, x = .ok s ∧ g s = b := by
  cases x with
  | ok s => exact ⟨s, rfl, by simpa [Except.toOption] using h⟩
  | error e => simp [Except.toOption] at h

end MacSim.Computation
