import MacSim.Computation.Partial

/-!
# Results and errors of a program

A program that stops at a failed assertion is an `Except`.  `Meets x Q E` says that a result of
`x` satisfies `Q` and that an error of `x` satisfies `E`.  The rules follow the shape of the
program; the loop rule has an invariant that may speak of the elements that are still to come.
-/

set_option autoImplicit false

namespace MacSim.Computation

variable {ε α β σ : Type}

/-- A result satisfies `Q`, an error satisfies `E`. -/
def Meets (x : Except ε α) (Q : α → Prop) (E : ε → Prop) : Prop :=
  match x with
  | .ok a => Q a
  | .error e => E e

namespace Meets

variable {x : Except ε α} {P Q : α → Prop} {E F : ε → Prop}

/-- A result that is reached meets the postcondition. -/
theorem result (h : Meets x Q E) {a : α} (hx : x = .ok a) : Q a := by
  rw [hx] at h
  exact h

/-- An error that is excluded is not reached. -/
theorem ne_error (h : Meets x Q E) {e : ε} (he : ¬ E e) : x ≠ .error e := by
  intro hx
  rw [hx] at h
  exact he h

/-- A program that meets no error has a result. -/
theorem exists_result (h : Meets x Q fun _ => False) : ∃ a, x = .ok a ∧ Q a := by
  cases x with
  | ok a => exact ⟨a, rfl, h⟩
  | error e => exact h.elim

/-- Both postconditions may be weakened. -/
theorem mono (h : Meets x P E) (hq : ∀ a, P a → Q a) (he : ∀ e, E e → F e) : Meets x Q F := by
  cases x with
  | ok a => exact hq a h
  | error e => exact he e h

/-- The parts of a sequence are taken one after the other. -/
theorem bind {f : α → Except ε β} {R : β → Prop} (hx : Meets x P E)
    (hf : ∀ a, P a → Meets (f a) R E) : Meets (x >>= f) R E := by
  cases x with
  | ok a => exact hf a hx
  | error e => exact hx

/-- A result may be mapped. -/
theorem map {f : α → β} {R : β → Prop} (hx : Meets x P E) (hf : ∀ a, P a → R (f a)) :
    Meets (x.map f) R E := by
  cases x with
  | ok a => exact hf a hx
  | error e => exact hx

/-- A loop over a list keeps an invariant that its body keeps.  The invariant has the rest of the
list as an argument. -/
theorem foldlM {I : List α → σ → Prop} {f : σ → α → Except ε σ} {E : ε → Prop} (l : List α) (s : σ)
    (h : I l s) (hf : ∀ a rest s, I (a :: rest) s → Meets (f s a) (I rest) E) :
    Meets (l.foldlM f s) (I []) E := by
  induction l generalizing s with
  | nil => exact h
  | cons a l ih =>
      rw [List.foldlM_cons]
      exact bind (hf a l s h) fun s' hs' => ih s' hs'

end Meets

/-! ## Loops whose turns meet a condition -/

/-- A loop whose turns meet `P` keeps what such turns keep. -/
theorem Meets.foldlM_eachStep {f : σ → α → Except ε σ} {P : σ → α → Prop} {I : List α → σ → Prop}
    {E : ε → Prop} (l : List α) (s : σ) (h : I l s)
    (hl : EachStep (fun s a => (f s a).toOption) P s l)
    (hf : ∀ a rest s, I (a :: rest) s → P s a → Meets (f s a) (I rest) E) :
    Meets (l.foldlM f s) (I []) E := by
  induction l generalizing s with
  | nil => exact h
  | cons a l ih =>
      rw [List.foldlM_cons]
      have hturn := hf a l s h hl.1
      cases hfa : f s a with
      | error e =>
          rw [hfa] at hturn
          exact hturn
      | ok s' =>
          rw [hfa] at hturn
          have hnext : (f s a).toOption = some s' := by rw [hfa]; rfl
          exact ih s' hturn (hl.2 s' hnext)

end MacSim.Computation
