import MacSim.Computation.StableSort
import Mathlib.Tactic

/-!
# A list kept in order

Elements are put one by one behind the elements of the same or a smaller key.  The front of the
list is then the first minimum of what was put in, and taking it away is taking that minimum
away.
-/

set_option autoImplicit false

namespace MacSim.Computation

variable {α κ : Type} [LinearOrder κ] {key : α → κ} {l : List α}

/-- The list after all insertions. -/
def arranged (key : α → κ) (l : List α) : List α :=
  l.foldl (fun sorted a => sorted.orderedInsert (fun x y => key x < key y) a) []

/-- An element that comes last is inserted into the order. -/
theorem arranged_append (l : List α) (a : α) :
    arranged key (l ++ [a]) = (arranged key l).orderedInsert (fun x y => key x < key y) a := by
  rw [arranged, List.foldl_append]
  rfl

/-- The order has the same elements. -/
theorem arranged_perm (key : α → κ) (l : List α) : (arranged key l).Perm l := by
  induction l using List.reverseRecOn with
  | nil => exact List.Perm.nil
  | append_singleton l a ih =>
      rw [arranged_append]
      refine (List.perm_orderedInsert _ a _).trans ?_
      exact (ih.cons a).trans (List.perm_append_singleton a l).symm

/-- Only the empty list is arranged into the empty list. -/
@[simp] theorem arranged_eq_nil : arranged key l = [] ↔ l = [] := by
  constructor
  · intro h
    have hperm := arranged_perm key l
    rw [h] at hperm
    exact hperm.nil_eq.symm
  · rintro rfl
    rfl

/-- No element has a smaller key. -/
def isMin (key : α → κ) (l : List α) (e : α) : Bool := l.all fun a => decide (key e ≤ key a)

/-- The test for a minimum compares with all elements. -/
theorem isMin_iff {e : α} : isMin key l e = true ↔ ∀ a ∈ l, key e ≤ key a := by
  unfold isMin
  rw [List.all_eq_true]
  exact forall₂_congr fun a _ => decide_eq_true_iff

/-- What is erased depends on the test at the elements only. -/
theorem eraseP_congr {p q : α → Bool} (h : ∀ a ∈ l, p a = q a) : l.eraseP p = l.eraseP q := by
  induction l with
  | nil => rfl
  | cons a l ih =>
      rw [List.eraseP_cons, List.eraseP_cons, h a List.mem_cons_self,
        ih fun b hb => h b (List.mem_cons_of_mem a hb)]

/-- The front of the list, and what is behind it. -/
theorem arranged_eq_cons {x : α} {rest : List α} (h : arranged key l = x :: rest) :
    firstMin key l = some x ∧ arranged key (l.eraseP (isMin key l)) = rest := by
  induction l using List.reverseRecOn generalizing x rest with
  | nil => cases h
  | append_singleton l a ih =>
      have hfind : firstMin key (l ++ [a]) =
          (l.find? (isMin key (l ++ [a]))).or ([a].find? (isMin key (l ++ [a]))) :=
        List.find?_append
      have hmin : ∀ e, isMin key (l ++ [a]) e = (isMin key l e && decide (key e ≤ key a)) := by
        intro e
        unfold isMin
        rw [List.all_append, List.all_cons, List.all_nil, Bool.and_true]
      rw [arranged_append] at h
      cases hl : arranged key l with
      | nil =>
          obtain rfl := arranged_eq_nil.mp hl
          cases h
          refine ⟨hfind.trans ?_, ?_⟩
          · simp [isMin]
          · simp [isMin]
      | cons y tail =>
          obtain ⟨hy, htail⟩ := ih hl
          obtain ⟨hymem, hymin⟩ := firstMin_eq_some hy
          rw [hl, List.orderedInsert_cons] at h
          by_cases hless : key a < key y
          · -- the new element is in front of all others
            rw [if_pos hless] at h
            cases h
            have hnot : ∀ e ∈ l, ¬ isMin key (l ++ [a]) e = true := by
              intro e he hall
              rw [hmin, Bool.and_eq_true, decide_eq_true_eq] at hall
              exact absurd (hless.trans_le (hymin e he)) (not_lt.mpr hall.2)
            have hself : isMin key (l ++ [a]) a = true := by
              rw [isMin_iff]
              intro b hb
              rcases List.mem_append.mp hb with hb | hb
              · exact (hless.trans_le (hymin b hb)).le
              · rw [List.mem_singleton.mp hb]
            refine ⟨hfind.trans ?_, ?_⟩
            · rw [List.find?_eq_none.mpr hnot, Option.none_or, List.find?_singleton, if_pos hself]
            · rw [List.eraseP_append_right _ hnot, List.eraseP_cons_of_pos hself, List.append_nil,
                hl]
          · rw [if_neg hless] at h
            cases h
            have hsame : ∀ e ∈ l, isMin key (l ++ [a]) e = isMin key l e := by
              intro e he
              rw [hmin]
              cases hall : isMin key l e with
              | false => rfl
              | true =>
                  have hle := (isMin_iff.mp hall x hymem).trans (not_lt.mp hless)
                  rw [decide_eq_true hle]
                  rfl
            refine ⟨hfind.trans ?_, ?_⟩
            · rw [List.find?_congr hsame]
              change (firstMin key l).or _ = _
              rw [hy]
              rfl
            · have hsome : isMin key (l ++ [a]) x = true := by
                rw [hsame x hymem]
                exact isMin_iff.mpr hymin
              rw [List.eraseP_append_left hsome _ hymem, arranged_append, eraseP_congr hsame, htail]

/-- The first minimum beats every other element, or stands before it. -/
theorem firstMin_before {r : α → α → Prop} (hl : l.Pairwise r) {x y : α}
    (h : firstMin key l = some x) (hy : y ∈ l) (hne : y ≠ x) :
    key x < key y ∨ key y = key x ∧ r x y := by
  have hmin := (firstMin_eq_some h).2
  rcases (hmin y hy).lt_or_eq with hless | hsame
  · exact Or.inl hless
  refine Or.inr ⟨hsame.symm, ?_⟩
  obtain ⟨-, before, behind, hsplit, hbefore⟩ := List.find?_eq_some_iff_append.mp h
  have hall : (l.all fun a => decide (key y ≤ key a)) = true :=
    isMin_iff.mpr fun a ha => hsame ▸ hmin a ha
  have hbehind : y ∈ behind := by
    rw [hsplit] at hy
    rcases List.mem_append.mp hy with hin | hin
    · have hnot := hbefore y hin
      rw [hall] at hnot
      exact absurd hnot Bool.false_ne_true
    · exact (List.mem_cons.mp hin).resolve_left hne
  rw [hsplit] at hl
  exact (List.pairwise_cons.mp (List.pairwise_append.mp hl).2.1).1 y hbehind

end MacSim.Computation
