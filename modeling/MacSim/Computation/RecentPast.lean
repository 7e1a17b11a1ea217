import Mathlib.Data.List.Basic
import Mathlib.Tactic

/-!
# The recent past

A queue of fixed length that is filled with a default and takes each new element at the front
holds the last elements that were put in, newest first.
-/

set_option autoImplicit false

namespace MacSim.Computation

variable {α : Type}

/-- The last `len` elements of a past that is listed newest first; what is missing is `pad`. -/
def recentPast (len : ℕ) (pad : α) (past : List α) : List α :=
  (past ++ List.replicate len pad).take len

/-- Nothing has happened in the empty past. -/
theorem recentPast_nil (len : ℕ) (pad : α) : recentPast len pad [] = List.replicate len pad := by
  simp [recentPast]

/-- The window has a fixed length. -/
theorem length_recentPast (len : ℕ) (pad : α) (past : List α) :
    (recentPast len pad past).length = len := by
  simp [recentPast]

/-- A new element pushes the oldest one out. -/
theorem cons_dropLast_recentPast {len : ℕ} (hlen : 0 < len) (pad a : α) (past : List α) :
    a :: (recentPast len pad past).dropLast = recentPast len pad (a :: past) := by
  obtain ⟨m, rfl⟩ := Nat.exists_eq_add_of_lt hlen
  unfold recentPast
  rw [List.dropLast_eq_take, List.take_take, List.length_take, List.cons_append,
    List.take_succ_cons]
  congr 2
  simp only [List.length_append, List.length_replicate]
  omega

/-- The places of the window are those of the past, as far as it goes. -/
theorem getElem?_recentPast {len d : ℕ} (hd : d < len) (pad : α) (past : List α) :
    (recentPast len pad past)[d]? = some (past[d]?.getD pad) := by
  unfold recentPast
  rw [List.getElem?_take_of_lt hd]
  rcases Nat.lt_or_ge d past.length with hlt | hge
  · rw [List.getElem?_append_left hlt, List.getElem?_eq_getElem hlt]
    rfl
  · rw [List.getElem?_append_right hge, List.getElem?_eq_none hge,
      List.getElem?_replicate_of_lt (by omega)]
    rfl

end MacSim.Computation
