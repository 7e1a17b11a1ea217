import Mathlib.Data.List.Basic

/-!
# The last element of a log that matches

A log is a list that grows at its end.  `lastMatch p l` is the most recent entry of `l` that
satisfies `p`.  The rules say what happens to it when the log grows, when its entries are
rewritten and when entries that do not match are dropped.
-/

set_option autoImplicit false

namespace MacSim.Computation

variable {α : Type}

/-- The last entry that satisfies `p`. -/
def lastMatch (p : α → Bool) (l : List α) : Option α := (l.filter p).getLast?

/-- Nothing matches in an empty list. -/
@[simp] theorem lastMatch_nil (p : α → Bool) : lastMatch p [] = none := rfl

/-- The last entry comes first. -/
theorem lastMatch_concat (p : α → Bool) (l : List α) (a : α) :
    lastMatch p (l ++ [a]) = if p a then some a else lastMatch p l := by
  unfold lastMatch
  cases h : p a <;> simp [h]

/-- Rewriting the entries without changing what they match. -/
theorem lastMatch_map {p : α → Bool} {f : α → α} (h : ∀ a, p (f a) = p a) (l : List α) :
    lastMatch p (l.map f) = (lastMatch p l).map f := by
  unfold lastMatch
  rw [List.filter_map, List.getLast?_map]
  congr 2
  exact List.filter_congr fun a _ => h a

/-- Dropping entries that do not match. -/
theorem lastMatch_filter {p q : α → Bool} (h : ∀ a, p a = true → q a = true) (l : List α) :
    lastMatch p (l.filter q) = lastMatch p l := by
  unfold lastMatch
  rw [List.filter_filter]
  congr 1
  refine List.filter_congr fun a _ => ?_
  cases hp : p a with
  | false => simp
  | true => simp [h a hp]

/-- There is no match exactly when no entry matches. -/
theorem lastMatch_eq_none {p : α → Bool} {l : List α} :
    lastMatch p l = none ↔ ∀ a ∈ l, p a = false := by
  simp [lastMatch]

/-- An entry is the last match iff it matches and nothing after it does. -/
theorem lastMatch_eq_some {p : α → Bool} {l : List α} {a : α} :
    lastMatch p l = some a ↔
      ∃ pre post, l = pre ++ a :: post ∧ p a = true ∧ ∀ b ∈ post, p b = false := by
  constructor
  · intro h
    obtain ⟨init, hinit⟩ := List.getLast?_eq_some_iff.mp h
    obtain ⟨l₁, l₂, rfl, h₁, h₂⟩ := List.filter_eq_append_iff.mp hinit
    obtain ⟨m₁, m₂, rfl, hm₁, ha, hm₂⟩ := List.filter_eq_cons_iff.mp h₂
    refine ⟨l₁ ++ m₁, m₂, by simp, ha, ?_⟩
    intro b hb
    simpa using List.filter_eq_nil_iff.mp hm₂ b hb
  · rintro ⟨pre, post, rfl, ha, hpost⟩
    have hnil : post.filter p = [] := by
      rw [List.filter_eq_nil_iff]
      intro b hb
      simp [hpost b hb]
    simp [lastMatch, ha, hnil]

/-- The match is an entry that matches. -/
theorem lastMatch_mem {p : α → Bool} {l : List α} {a : α} (h : lastMatch p l = some a) :
    a ∈ l ∧ p a = true := by
  obtain ⟨pre, post, rfl, ha, -⟩ := lastMatch_eq_some.mp h
  exact ⟨by simp, ha⟩

end MacSim.Computation
