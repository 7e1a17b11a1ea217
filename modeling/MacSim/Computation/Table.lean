import Mathlib.Algebra.BigOperators.Group.Finset.Basic
import Mathlib.Logic.Function.Basic
import Mathlib.Tactic

/-!
# Tables and their point updates

A table indexed by a row and a column, with a point update.  The read lemma is stated by one
condition on the pair of indices, which is the form case splits use.  For tables with one index
the update is that of Mathlib; the lemmas here say what it does to a property of all entries
and to a sum over the entries.
-/

set_option autoImplicit false

namespace MacSim.Computation

variable {ι κ α : Type} [DecidableEq ι] [DecidableEq κ]

/-- Replace one cell of a table. -/
def upd (t : ι → κ → α) (i : ι) (j : κ) (x : α) : ι → κ → α :=
  fun i' j' => if i' = i ∧ j' = j then x else t i' j'

/-- A table after a write, place by place. -/
theorem upd_apply (t : ι → κ → α) (i i' : ι) (j j' : κ) (x : α) :
    upd t i j x i' j' = if i' = i ∧ j' = j then x else t i' j' := rfl

/-- What is written is read back. -/
@[simp] theorem upd_same (t : ι → κ → α) (i : ι) (j : κ) (x : α) : upd t i j x i j = x := by
  simp [upd]

/-- The other places are kept. -/
theorem upd_ne (t : ι → κ → α) {i i' : ι} {j j' : κ} (x : α) (h : ¬ (i' = i ∧ j' = j)) :
    upd t i j x i' j' = t i' j' := if_neg h

omit [DecidableEq κ] in
/-- A property of all entries of a table of lists survives the update of one list. -/
theorem forall_mem_update {t : ι → List α} {i : ι} {l : List α} {P : α → Prop}
    (ht : ∀ j, ∀ a ∈ t j, P a) (hl : ∀ a ∈ l, P a) : ∀ j, ∀ a ∈ Function.update t i l j, P a := by
  intro j a ha
  rw [Function.update_apply] at ha
  split at ha
  · exact hl a ha
  · exact ht j a ha

section Sums

variable {β M : Type} [AddCommMonoid M] {s : Finset ι} {t : ι → β} {i : ι} {x : β} {z : M}

omit [DecidableEq κ] in
/-- The sum over a table whose entry `i` grows by `z`. -/
theorem sum_update_add (g : β → M) (hi : i ∈ s) (h : g x = g (t i) + z) :
    ∑ j ∈ s, g (Function.update t i x j) = ∑ j ∈ s, g (t j) + z := by
  have hrest : ∑ j ∈ s.erase i, g (Function.update t i x j) = ∑ j ∈ s.erase i, g (t j) :=
    Finset.sum_congr rfl fun j hj => by rw [Function.update_of_ne (Finset.ne_of_mem_erase hj)]
  rw [← Finset.add_sum_erase s _ hi, ← Finset.add_sum_erase s (fun j => g (t j)) hi, hrest,
    Function.update_self, h]
  abel

omit [DecidableEq κ] in
/-- The sum over a table whose entry `i` shrinks by `z`. -/
theorem sum_update_sub (g : β → M) (hi : i ∈ s) (h : g (t i) = g x + z) :
    ∑ j ∈ s, g (t j) = ∑ j ∈ s, g (Function.update t i x j) + z := by
  have hrest : ∑ j ∈ s.erase i, g (Function.update t i x j) = ∑ j ∈ s.erase i, g (t j) :=
    Finset.sum_congr rfl fun j hj => by rw [Function.update_of_ne (Finset.ne_of_mem_erase hj)]
  rw [← Finset.add_sum_erase s _ hi,
    ← Finset.add_sum_erase s (fun j => g (Function.update t i x j)) hi, hrest,
    Function.update_self, h]
  abel

end Sums

end MacSim.Computation
