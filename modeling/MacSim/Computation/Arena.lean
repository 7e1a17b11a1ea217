import Mathlib.Data.List.Perm.Basic
import Mathlib.Data.List.Range
import Mathlib.Tactic

/-!
# Recycled objects

An arena hands out objects and takes them back.  The free objects are a stack; when it is
empty the arena grows by a unit of new objects.  `Owns` says that the free objects and those
that are out are all different, so an object is never handed out twice at a time.
-/

set_option autoImplicit false

namespace MacSim.Computation

/-- The free objects, and the first object that does not exist yet. -/
structure Arena where
  free : List ℕ
  next : ℕ
  deriving DecidableEq, Repr

namespace Arena

/-- No object has been made. -/
def empty : Arena := ⟨[], 0⟩

/-- Hand out the top of the stack, after growing by `unit + 1` objects if there is none. -/
def acquire (unit : ℕ) (a : Arena) : ℕ × Arena :=
  match a.free with
  | p :: rest => (p, { a with free := rest })
  | [] => (a.next, ⟨List.range' (a.next + 1) unit, a.next + (unit + 1)⟩)

/-- Take an object back. -/
def release (a : Arena) (p : ℕ) : Arena := { a with free := p :: a.free }

/-- The objects `out` and the free ones exist and are all different. -/
structure Owns (a : Arena) (out : List ℕ) : Prop where
  nodup : (a.free ++ out).Nodup
  bound : ∀ p ∈ a.free ++ out, p < a.next

namespace Owns

variable {a : Arena} {out : List ℕ}

/-- An empty arena owns nothing. -/
theorem empty : Owns Arena.empty [] where
  nodup := by simp [Arena.empty]
  bound := by simp [Arena.empty]

/-- Ownership does not depend on the order of the list. -/
theorem perm {out' : List ℕ} (h : Owns a out) (hp : out.Perm out') : Owns a out' where
  nodup := (hp.append_left a.free).nodup_iff.mp h.nodup
  bound p hmem := h.bound p ((hp.append_left a.free).mem_iff.mpr hmem)

/-- Objects may be forgotten: nothing hands them out again. -/
theorem sublist {out' : List ℕ} (h : Owns a out) (hs : out'.Sublist out) : Owns a out' where
  nodup := h.nodup.sublist (hs.append_left a.free)
  bound p hmem := h.bound p ((hs.append_left a.free).subset hmem)

/-- No object is out twice. -/
theorem out_nodup (h : Owns a out) : out.Nodup := h.nodup.of_append_right

/-- An object that is out is not free. -/
theorem not_free (h : Owns a out) {p : ℕ} (hp : p ∈ out) : p ∉ a.free := fun hf =>
  (List.nodup_append.mp h.nodup).2.2 p hf p hp rfl

/-- An object that is acquired is out. -/
theorem acquire (h : Owns a out) (unit : ℕ) :
    Owns (a.acquire unit).2 ((a.acquire unit).1 :: out) := by
  unfold Arena.acquire
  split
  · rename_i p rest hfree
    have hperm : (a.free ++ out).Perm (rest ++ p :: out) := by
      rw [hfree]
      exact List.perm_middle.symm
    exact ⟨hperm.nodup_iff.mp h.nodup, fun q hq => h.bound q (hperm.mem_iff.mpr hq)⟩
  · rename_i hfree
    have hout : ∀ q ∈ out, q < a.next := fun q hq => h.bound q (by simp [hq])
    constructor
    · refine List.nodup_append.mpr ⟨List.nodup_range', ?_, ?_⟩
      · refine List.nodup_cons.mpr ⟨fun hmem => ?_, h.out_nodup⟩
        have := hout _ hmem
        omega
      · intro x hx y hy hxy
        have hlow := (List.mem_range'_1.mp hx).1
        rcases List.mem_cons.mp hy with rfl | hy
        · omega
        · have := hout y hy
          omega
    · intro q hq
      simp only [List.mem_append, List.mem_range'_1, List.mem_cons] at hq
      change q < a.next + (unit + 1)
      rcases hq with hq | rfl | hq
      · omega
      · omega
      · have := hout q hq
        omega

/-- An object that is acquired was not out. -/
theorem acquire_not_mem (h : Owns a out) (unit : ℕ) : (a.acquire unit).1 ∉ out :=
  (List.nodup_cons.mp (h.acquire unit).out_nodup).1

/-- An object that is released is free. -/
theorem release {p : ℕ} (h : Owns a (p :: out)) : Owns (a.release p) out where
  nodup := List.perm_middle.nodup_iff.mp h.nodup
  bound q hq := h.bound q (List.perm_middle.mem_iff.mpr hq)

end Owns

end Arena

end MacSim.Computation
