import Mathlib.Data.Option.Basic
import Mathlib.Data.List.Basic

/-!
# Partial correctness of programs that may stop

A program that may fail an assertion is an `Option`.  `Ensures x Q` says that every result of
`x` satisfies `Q`; a program that stops satisfies everything.  The rules follow the shape of
the program: sequencing, mapping, and the loop over a list.  `EachStep` says that every step of
a run of such programs meets a condition.
-/

set_option autoImplicit false

namespace MacSim.Computation

variable {α β σ : Type}

/-- Every result of `x` satisfies `Q`. -/
def Ensures (x : Option α) (Q : α → Prop) : Prop := ∀ a, x = some a → Q a

namespace Ensures

instance decidable (x : Option α) (Q : α → Prop) [∀ a, Decidable (Q a)] : Decidable (Ensures x Q) :=
  match x with
  | none => isTrue fun _ h => nomatch h
  | some a =>
    decidable_of_iff (Q a) ⟨fun ha _ h => Option.some.inj h ▸ ha, fun ha => ha a rfl⟩

variable {x : Option α} {P Q : α → Prop}

/-- A run that stops ensures anything. -/
theorem of_none : Ensures none Q := fun _ h => nomatch h

/-- What holds of a result is ensured of the run that yields it. -/
theorem of_some {a : α} (h : Q a) : Ensures (some a) Q := by
  intro b hb
  cases hb
  exact h

/-- Nothing is ensured for free. -/
theorem trivial : Ensures x fun _ => True := fun _ _ => True.intro

/-- The postcondition may be weakened. -/
theorem mono (hx : Ensures x P) (h : ∀ a, P a → Q a) : Ensures x Q :=
  fun a ha => h a (hx a ha)

/-- The parts of a sequence are taken one after the other. -/
theorem bind {f : α → Option β} {R : β → Prop} (hx : Ensures x P)
    (hf : ∀ a, P a → Ensures (f a) R) : Ensures (x.bind f) R := by
  intro b hb
  obtain ⟨a, ha, hfa⟩ := Option.bind_eq_some_iff.mp hb
  exact hf a (hx a ha) b hfa

/-- A result may be mapped. -/
theorem map {f : α → β} {R : β → Prop} (hx : Ensures x P) (hf : ∀ a, P a → R (f a)) :
    Ensures (x.map f) R := by
  intro b hb
  obtain ⟨a, ha, rfl⟩ := Option.map_eq_some_iff.mp hb
  exact hf a (hx a ha)

/-- A loop over a list keeps an invariant that its body keeps. -/
theorem foldlM {I : σ → Prop} {f : σ → α → Option σ} (xs : List α) (s : σ) (h : I s)
    (hf : ∀ s, I s → ∀ a ∈ xs, Ensures (f s a) I) : Ensures (xs.foldlM f s) I := by
  induction xs generalizing s with
  | nil => exact of_some h
  | cons a xs ih =>
      rw [List.foldlM_cons]
      refine bind (hf s h a List.mem_cons_self) fun s' hs' => ?_
      exact ih s' hs' fun t ht b hb => hf t ht b (List.mem_cons_of_mem a hb)

/-- A loop goes to its end when its body keeps an invariant under which it does not stop. -/
theorem foldlM_isSome {I : σ → Prop} {f : σ → α → Option σ} (xs : List α) (s : σ) (h : I s)
    (hf : ∀ s, I s → ∀ a ∈ xs, (f s a).isSome ∧ Ensures (f s a) I) : (xs.foldlM f s).isSome := by
  induction xs generalizing s with
  | nil => rfl
  | cons a xs ih =>
      obtain ⟨hsome, hI⟩ := hf s h a List.mem_cons_self
      obtain ⟨t, ht⟩ := Option.isSome_iff_exists.mp hsome
      rw [List.foldlM_cons, ht]
      exact ih t (hI t ht) fun u hu b hb => hf u hu b (List.mem_cons_of_mem a hb)

end Ensures

/-- A counted loop goes to its end when every turn succeeds and takes the invariant of its number
to the next one. -/
theorem foldlM_range_some {I : ℕ → σ → Prop} {f : σ → ℕ → Option σ} (n : ℕ) {s : σ} (h : I 0 s)
    (hstep : ∀ i < n, ∀ s, I i s → ∃ t, f s i = some t ∧ I (i + 1) t) :
    ∃ t, (List.range n).foldlM f s = some t ∧ I n t := by
  induction n with
  | zero => exact ⟨s, rfl, h⟩
  | succ n ih =>
      obtain ⟨t, ht, hI⟩ := ih fun i hi => hstep i (by omega)
      obtain ⟨t', ht', hI'⟩ := hstep n (by omega) t hI
      refine ⟨t', ?_, hI'⟩
      rw [List.range_succ, List.foldlM_append, ht]
      simpa using ht'

/-! ## Runs whose steps meet a condition -/

/-- Every step of a run meets `P` in the state that it starts from.  A step that cannot stop is
`some` of its result, and one that raises an error is taken by `toOption`. -/
def EachStep (step : σ → α → Option σ) (P : σ → α → Prop) : σ → List α → Prop
  | _, [] => True
  | s, a :: l => P s a ∧ ∀ s', step s a = some s' → EachStep step P s' l

namespace EachStep

variable {step : σ → α → Option σ} {P : σ → α → Prop}

instance decidable (step : σ → α → Option σ) (P : σ → α → Prop) [∀ s a, Decidable (P s a)] :
    ∀ s l, Decidable (EachStep step P s l)
  | _, [] => isTrue True.intro
  | s, a :: l =>
    have := fun s' => decidable step P s' l
    inferInstanceAs (Decidable (P s a ∧ Ensures (step s a) fun s' => EachStep step P s' l))

/-- A step that meets `P` before a run of such steps. -/
theorem cons {s s' : σ} {a : α} {l : List α} (ha : P s a) (hs : step s a = some s')
    (h : EachStep step P s' l) : EachStep step P s (a :: l) := by
  refine ⟨ha, fun t ht => ?_⟩
  rw [hs] at ht
  exact Option.some.inj ht ▸ h

/-- The two parts of a run whose steps meet `P`. -/
theorem append {s : σ} {l later : List α} (h : EachStep step P s (l ++ later)) :
    EachStep step P s l ∧ ∀ s', l.foldlM step s = some s' → EachStep step P s' later := by
  induction l generalizing s with
  | nil =>
      refine ⟨True.intro, fun s' hs => ?_⟩
      exact Option.some.inj hs ▸ h
  | cons a l ih =>
      refine ⟨⟨h.1, fun s' hs => (ih (h.2 s' hs)).1⟩, fun s' hs => ?_⟩
      rw [List.foldlM_cons] at hs
      obtain ⟨m, hm, hs⟩ := Option.bind_eq_some_iff.mp hs
      exact (ih (h.2 m hm)).2 s' hs

/-- What the steps that meet `P` keep, the runs of such steps keep. -/
theorem invariant {I : σ → Prop} {l : List α}
    (hstep : ∀ s, ∀ a ∈ l, ∀ s', I s → P s a → step s a = some s' → I s') {s s' : σ}
    (hs : I s) (hl : EachStep step P s l) (h : l.foldlM step s = some s') : I s' := by
  induction l generalizing s with
  | nil =>
      obtain rfl := Option.some.inj h
      exact hs
  | cons a l ih =>
      rw [List.foldlM_cons] at h
      obtain ⟨m, hm, h⟩ := Option.bind_eq_some_iff.mp h
      have hnext : I m := hstep s a List.mem_cons_self m hs hl.1 hm
      exact ih (fun t b hb => hstep t b (List.mem_cons_of_mem a hb)) hnext (hl.2 m hm) h

/-- The same for steps that cannot stop. -/
theorem foldl {f : σ → α → σ} {I : σ → Prop} {l : List α}
    (hstep : ∀ s, ∀ a ∈ l, I s → P s a → I (f s a)) {s : σ} (hs : I s)
    (hl : EachStep (fun s a => some (f s a)) P s l) : I (l.foldl f s) := by
  induction l generalizing s with
  | nil => exact hs
  | cons a l ih =>
      have hnext : I (f s a) := hstep s a List.mem_cons_self hs hl.1
      exact ih (fun t b hb => hstep t b (List.mem_cons_of_mem a hb)) hnext (hl.2 _ rfl)

end EachStep

end MacSim.Computation
