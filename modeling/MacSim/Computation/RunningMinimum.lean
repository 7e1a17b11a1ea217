import Mathlib.Data.List.Basic
import Mathlib.Tactic

/-!
# A scan with two minima

One pass over a list keeps the least first key so far and, with it, the least second key of
the elements at which the first one was not beaten.  The second minimum is not reset when the
first one improves, so that it ranges over the elements that are lowest up to their place, not
only over those that are lowest in the whole list.
-/

set_option autoImplicit false

namespace MacSim.Computation

variable {α : Type} {key₁ key₂ : α → ℕ} {l : List α} {a b : α}

/-- One step of the scan. -/
def scanMin (key₁ key₂ : α → ℕ) (x : ℕ × ℕ) (a : α) : ℕ × ℕ :=
  if key₁ a ≤ x.1 then (key₁ a, min x.2 (key₂ a)) else x

/-- No element before this one is lower. -/
def LowestSoFar (key : α → ℕ) (l : List α) (a : α) : Prop :=
  ∃ before behind, l = before ++ a :: behind ∧ ∀ b ∈ before, key a ≤ key b

/-- No element of the list is lower. -/
def Lowest (key : α → ℕ) (l : List α) (a : α) : Prop := a ∈ l ∧ ∀ b ∈ l, key a ≤ key b

/-- The lowest element so far is an element. -/
theorem LowestSoFar.mem (h : LowestSoFar key₁ l a) : a ∈ l := by
  obtain ⟨before, behind, rfl, -⟩ := h
  exact List.mem_append_right _ List.mem_cons_self

/-- The first lowest element is lowest so far. -/
theorem Lowest.soFar (h : Lowest key₁ l a) : LowestSoFar key₁ l a := by
  obtain ⟨before, behind, hsplit⟩ := List.append_of_mem h.1
  exact ⟨before, behind, hsplit, fun b hb => h.2 b (hsplit ▸ List.mem_append_left _ hb)⟩

/-- The head of a list is lowest so far, as nothing comes before it. -/
theorem lowestSoFar_head : LowestSoFar key₁ (a :: l) a := ⟨[], l, rfl, fun _ hb => by cases hb⟩

/-- The elements of a tail that are lowest so far in the whole list. -/
theorem lowestSoFar_cons :
    LowestSoFar key₁ (a :: l) b ↔ b = a ∨ LowestSoFar key₁ l b ∧ key₁ b ≤ key₁ a := by
  constructor
  · rintro ⟨before, behind, hsplit, hle⟩
    cases before with
    | nil => exact Or.inl (List.cons.inj hsplit).1.symm
    | cons c before =>
        obtain ⟨rfl, rfl⟩ := List.cons.inj hsplit
        exact Or.inr ⟨⟨before, behind, rfl, fun d hd => hle d (List.mem_cons_of_mem _ hd)⟩,
          hle a List.mem_cons_self⟩
  · rintro (rfl | ⟨⟨before, behind, rfl, hle⟩, hba⟩)
    · exact lowestSoFar_head
    · refine ⟨a :: before, behind, rfl, fun d hd => ?_⟩
      rcases List.mem_cons.mp hd with rfl | hd
      · exact hba
      · exact hle d hd

/-- The first minimum. -/
theorem foldl_scanMin_fst (key₁ key₂ : α → ℕ) (l : List α) (x : ℕ × ℕ) :
    (l.foldl (scanMin key₁ key₂) x).1 ≤ x.1 ∧
      (∀ a ∈ l, (l.foldl (scanMin key₁ key₂) x).1 ≤ key₁ a) ∧
      ((l.foldl (scanMin key₁ key₂) x).1 = x.1 ∨
        ∃ a ∈ l, (l.foldl (scanMin key₁ key₂) x).1 = key₁ a) := by
  induction l generalizing x with
  | nil => simp
  | cons a l ih =>
      obtain ⟨hstart, hall, hsome⟩ := ih (scanMin key₁ key₂ x a)
      have hstep : (scanMin key₁ key₂ x a).1 = min x.1 (key₁ a) := by
        unfold scanMin
        split <;> omega
      rw [List.foldl_cons]
      rw [hstep] at hstart hsome
      refine ⟨by omega, fun b hb => ?_, ?_⟩
      · rcases List.mem_cons.mp hb with rfl | hb
        · omega
        · exact hall b hb
      · rcases hsome with hsame | ⟨b, hb, hsame⟩
        · rcases Nat.le_total x.1 (key₁ a) with hle | hle
          · exact Or.inl (by omega)
          · exact Or.inr ⟨a, List.mem_cons_self, by omega⟩
        · exact Or.inr ⟨b, List.mem_cons_of_mem _ hb, hsame⟩

/-- The second minimum is taken over the elements that are lowest up to their place. -/
theorem foldl_scanMin_snd (key₁ key₂ : α → ℕ) (l : List α) (x : ℕ × ℕ) :
    (l.foldl (scanMin key₁ key₂) x).2 ≤ x.2 ∧
      (∀ a, LowestSoFar key₁ l a → key₁ a ≤ x.1 →
        (l.foldl (scanMin key₁ key₂) x).2 ≤ key₂ a) ∧
      ((l.foldl (scanMin key₁ key₂) x).2 = x.2 ∨
        ∃ a, LowestSoFar key₁ l a ∧ key₁ a ≤ x.1 ∧
          (l.foldl (scanMin key₁ key₂) x).2 = key₂ a) := by
  induction l generalizing x with
  | nil =>
      refine ⟨le_rfl, fun a ha => ?_, Or.inl rfl⟩
      cases ha.mem
  | cons a l ih =>
      obtain ⟨hstart, hall, hsome⟩ := ih (scanMin key₁ key₂ x a)
      rw [List.foldl_cons]
      by_cases hle : key₁ a ≤ x.1
      · have hstep : scanMin key₁ key₂ x a = (key₁ a, min x.2 (key₂ a)) := if_pos hle
        rw [hstep] at hstart hall hsome ⊢
        refine ⟨hstart.trans (min_le_left _ _), fun b hb _ => ?_, ?_⟩
        · rcases lowestSoFar_cons.mp hb with rfl | ⟨hb, hba⟩
          · exact hstart.trans (min_le_right _ _)
          · exact hall b hb hba
        · rcases hsome with hsame | ⟨b, hb, hba, hsame⟩
          · rcases min_choice x.2 (key₂ a) with hmin | hmin
            · exact Or.inl (hsame.trans hmin)
            · exact Or.inr ⟨a, lowestSoFar_head, hle, hsame.trans hmin⟩
          · exact Or.inr ⟨b, lowestSoFar_cons.mpr (.inr ⟨hb, hba⟩), hba.trans hle, hsame⟩
      · have hstep : scanMin key₁ key₂ x a = x := if_neg hle
        rw [hstep] at hstart hall hsome ⊢
        refine ⟨hstart, fun b hb hbx => ?_, ?_⟩
        · rcases lowestSoFar_cons.mp hb with rfl | ⟨hb, -⟩
          · exact absurd hbx hle
          · exact hall b hb hbx
        · rcases hsome with hsame | ⟨b, hb, hbx, hsame⟩
          · exact Or.inl hsame
          · exact Or.inr ⟨b, lowestSoFar_cons.mpr (.inr ⟨hb, by omega⟩), hbx, hsame⟩

end MacSim.Computation
