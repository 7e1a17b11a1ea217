import Mathlib.Data.List.Basic
import Mathlib.Data.List.Flatten
import Mathlib.Tactic

/-!
# Streams of packets cut into numbered pieces

A packet `q` is sent as the pieces `(q, 0), …, (q, len q - 1)`.  A cursor is the last piece
seen of a packet that is not complete, or nothing between two packets, and a stream is accepted
from one cursor to another when every piece is the one that the cursor expects.  Acceptance
composes along concatenation, which is what buffers in a row need, and an accepted stream is a
sequence of whole packets with an incomplete one at its end.
-/

set_option autoImplicit false

namespace MacSim.Computation

variable {Q : Type} (len : Q → ℕ)

/-- The cursor after a piece. -/
def afterPiece (x : Q × ℕ) : Option (Q × ℕ) := if x.2 + 1 = len x.1 then none else some x

/-- The piece is the one that the cursor expects. -/
def Expects : Option (Q × ℕ) → Q × ℕ → Prop
  | none, x => x.2 = 0
  | some y, x => x.1 = y.1 ∧ x.2 = y.2 + 1

/-- The stream `l` is accepted from the cursor `e` to the cursor `e'`. -/
def Accepts : Option (Q × ℕ) → List (Q × ℕ) → Option (Q × ℕ) → Prop
  | e, [], e' => e = e'
  | e, x :: l, e' => Expects e x ∧ Accepts (afterPiece len x) l e'

/-- The piece `y` comes right after the piece `x`. -/
def Follows (x y : Q × ℕ) : Prop := Expects (afterPiece len x) y

/-- All pieces of a packet. -/
def pieces (q : Q) : List (Q × ℕ) := (List.range (len q)).map fun j => (q, j)

/-- The pieces of the incomplete packet at a cursor. -/
def started : Option (Q × ℕ) → List (Q × ℕ)
  | none => []
  | some x => (List.range (x.2 + 1)).map fun j => (x.1, j)

variable {len}

/-- An empty stream does not move the cursor. -/
@[simp] theorem accepts_nil {e e' : Option (Q × ℕ)} : Accepts len e [] e' ↔ e = e' := Iff.rfl

/-- A stream is accepted piece by piece. -/
@[simp] theorem accepts_cons {e e' : Option (Q × ℕ)} {x : Q × ℕ} {l : List (Q × ℕ)} :
    Accepts len e (x :: l) e' ↔ Expects e x ∧ Accepts len (afterPiece len x) l e' := Iff.rfl

/-- Acceptance composes along concatenation. -/
theorem accepts_append {e e' : Option (Q × ℕ)} {l l' : List (Q × ℕ)} :
    Accepts len e (l ++ l') e' ↔ ∃ m, Accepts len e l m ∧ Accepts len m l' e' := by
  induction l generalizing e with
  | nil => simp
  | cons x l ih => simp [ih, and_assoc]

/-- One more piece at the end. -/
theorem Accepts.snoc {e m : Option (Q × ℕ)} {l : List (Q × ℕ)} {x : Q × ℕ}
    (h : Accepts len e l m) (hx : Expects m x) : Accepts len e (l ++ [x]) (afterPiece len x) :=
  accepts_append.mpr ⟨m, h, hx, rfl⟩

/-- A piece that opens a packet is expected only between packets. -/
theorem Expects.eq_none {e : Option (Q × ℕ)} {x : Q × ℕ} (h : Expects e x) (hx : x.2 = 0) :
    e = none := by
  cases e with
  | none => rfl
  | some y =>
      have := h.2
      omega

/-- The pieces of an accepted stream follow one another. -/
theorem Accepts.isChain {e e' : Option (Q × ℕ)} {l : List (Q × ℕ)} (h : Accepts len e l e') :
    l.IsChain (Follows len) := by
  induction l generalizing e with
  | nil => exact .nil
  | cons x l ih =>
      have htail := ih h.2
      cases l with
      | nil => exact .singleton x
      | cons y l => exact .cons_cons h.2.1 htail

/-- The first pieces of a packet lead to the last of them. -/
theorem accepts_started {q : Q} {j : ℕ} (h : j + 1 < len q) :
    Accepts len none (started (some (q, j))) (some (q, j)) := by
  induction j with
  | zero => simp [started, Expects, afterPiece, show ¬ 1 = len q by omega]
  | succ j ih =>
      have hsnoc := (ih (by omega)).snoc (x := (q, j + 1)) ⟨rfl, rfl⟩
      rw [afterPiece, if_neg (by simp only; omega)] at hsnoc
      simpa [started, List.range_succ] using hsnoc

/-- A whole packet is accepted between packets. -/
theorem accepts_pieces {q : Q} (h : 0 < len q) : Accepts len none (pieces len q) none := by
  obtain ⟨n, hn⟩ : ∃ n, len q = n + 1 := ⟨len q - 1, by omega⟩
  have hlast : afterPiece len (q, n) = none := if_pos hn.symm
  cases n with
  | zero => simp [pieces, hn, Expects, hlast]
  | succ n =>
      have hfirst : Accepts len none (started (some (q, n))) (some (q, n)) :=
        accepts_started (by omega)
      have hsnoc := hfirst.snoc (x := (q, n + 1)) ⟨rfl, rfl⟩
      rw [hlast] at hsnoc
      simpa [pieces, started, hn, List.range_succ] using hsnoc

/-- A stream accepted from the start is a sequence of whole packets, one for each last piece,
with an incomplete packet at its end. -/
theorem Accepts.decompose {l : List (Q × ℕ)} {e : Option (Q × ℕ)} (h : Accepts len none l e) :
    l = ((l.filter fun x => x.2 + 1 = len x.1).map Prod.fst).flatMap (pieces len) ++ started e ∧
      ∀ x, e = some x → x.2 + 1 ≠ len x.1 := by
  induction l using List.reverseRecOn generalizing e with
  | nil =>
      cases h
      simp [started]
  | append_singleton l x ih =>
      obtain ⟨m, hm, hx, rfl⟩ := accepts_append.mp h
      obtain ⟨hl, -⟩ := ih hm
      -- the cursor before `x` tells how much of its packet is already there
      have hbefore : started m ++ [x] = (List.range (x.2 + 1)).map fun j => (x.1, j) := by
        cases m with
        | none =>
            obtain ⟨q, j⟩ := x
            obtain rfl : j = 0 := hx
            rfl
        | some y =>
            obtain ⟨q, j⟩ := x
            obtain ⟨rfl, rfl⟩ : q = y.1 ∧ j = y.2 + 1 := hx
            simp [started, List.range_succ]
      by_cases hlast : x.2 + 1 = len x.1
      · have hafter : afterPiece len x = none := if_pos hlast
        refine ⟨?_, by simp [hafter]⟩
        rw [List.filter_append, List.map_append, List.flatMap_append, hafter]
        simp only [hlast, List.filter_singleton, decide_true, cond_true, List.map_cons,
          List.map_nil, List.flatMap_singleton, started, List.append_nil]
        conv_lhs => rw [hl, List.append_assoc, hbefore, hlast]
        rfl
      · have hafter : afterPiece len x = some x := if_neg hlast
        refine ⟨?_, by simp only [hafter, Option.some.injEq]; rintro y rfl; exact hlast⟩
        rw [List.filter_append, List.map_append, List.flatMap_append, hafter]
        simp only [hlast, List.filter_singleton, decide_false, cond_false, List.map_nil,
          List.flatMap_nil, List.append_nil, started]
        conv_lhs => rw [hl, List.append_assoc, hbefore]

end MacSim.Computation
