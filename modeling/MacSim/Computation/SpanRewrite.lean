import Mathlib.Tactic

/-!
# Replacing spans of a list

Some entries of a list open a span, which ends just before the next entry that closes it.  Each
span is replaced by one made entry; an entry that opens no span stays, also one that would open a
span that is never closed.

Beside it stands what a rewriter does that reads the list once: it knows that a span is not
closed only when the list has ended, it passes the closing entry on without looking at it again,
and it may be told to stop.  The two agree under a condition on the list.
-/

set_option autoImplicit false

namespace MacSim.Computation

variable {α κ β : Type}

/-- What opens a span, what closes it, and what becomes of the entries. -/
structure SpanRules (α κ β : Type) where
  opens : α → Option κ
  closes : κ → α → Bool
  raw : α → β
  made : κ → List α → β

namespace SpanRules

variable (R : SpanRules α κ β)

/-- The entries from the one on that closes the span. -/
def closing (c : κ) (l : List α) : List α := l.dropWhile fun x => !R.closes c x

/-- The entries before the one that closes the span. -/
def inside (c : κ) (l : List α) : List α := l.takeWhile fun x => !R.closes c x

/-- What follows a closing entry is a suffix. -/
theorem length_closing_le (c : κ) (l : List α) : (R.closing c l).length ≤ l.length :=
  (List.dropWhile_sublist _).length_le

/-- A span that is closed in a list is closed at the same place when the list goes on. -/
theorem closing_append {c : κ} {l rest : List α} {y : α} (h : R.closing c l = y :: rest)
    (tail : List α) :
    R.closing c (l ++ tail) = y :: (rest ++ tail) ∧ R.inside c (l ++ tail) = R.inside c l := by
  induction l with
  | nil => simp [closing] at h
  | cons x l ih =>
    by_cases hx : R.closes c x = true
    · simp only [closing, inside, List.cons_append, List.dropWhile_cons, List.takeWhile_cons, hx,
        Bool.not_true, Bool.false_eq_true, if_false] at h ⊢
      rw [List.cons.injEq] at h
      rw [h.1, h.2]
      exact ⟨rfl, trivial⟩
    · simp only [closing, inside, List.cons_append, List.dropWhile_cons, List.takeWhile_cons,
        Bool.not_eq_true _ ▸ hx, Bool.not_false, if_true] at h ih ⊢
      obtain ⟨hc, hi⟩ := ih h
      exact ⟨hc, by rw [hi]⟩

/-- Every span replaced. -/
def substitute : List α → List β
  | [] => []
  | x :: l =>
    match R.opens x with
    | none => R.raw x :: substitute l
    | some c =>
      match _h : R.closing c l with
      | [] => R.raw x :: substitute l
      | y :: rest => R.made c (x :: R.inside c l) :: substitute (y :: rest)
termination_by l => l.length
decreasing_by
  · simp
  · simp
  · have := R.length_closing_le c l
    rw [_h] at this
    simp only [List.length_cons] at this ⊢
    omega

/-- The first entry opens a span that is closed. -/
def StartsSpan : List α → Prop
  | [] => False
  | x :: l => ∃ c, R.opens x = some c ∧ R.closing c l ≠ []

/-- An entry that starts no span is passed on. -/
theorem substitute_raw {x : α} {l : List α} (h : ¬ R.StartsSpan (x :: l)) :
    R.substitute (x :: l) = R.raw x :: R.substitute l := by
  rw [substitute]
  split
  · rfl
  · rename_i c hopens
    split
    · rfl
    · rename_i y rest hclosing
      exact absurd ⟨c, hopens, by rw [hclosing]; exact List.cons_ne_nil _ _⟩ h

/-- A span is replaced by what is made of it. -/
theorem substitute_span {x y : α} {l rest : List α} {c : κ} (hopens : R.opens x = some c)
    (hclosing : R.closing c l = y :: rest) :
    R.substitute (x :: l) = R.made c (x :: R.inside c l) :: R.substitute (y :: rest) := by
  rw [substitute]
  split
  · rename_i hnone
    rw [hopens] at hnone
    cases hnone
  · rename_i c' hsome
    obtain rfl : c = c' := Option.some.inj (hopens.symm.trans hsome)
    split
    · rename_i hnil
      rw [hclosing] at hnil
      cases hnil
    · rename_i y' rest' hcons
      rw [hclosing, List.cons.injEq] at hcons
      rw [hcons.1, hcons.2]

/-- Some entry follows a first entry. -/
theorem substitute_ne_nil (x : α) (l : List α) : R.substitute (x :: l) ≠ [] := by
  rw [substitute]
  split
  · exact List.cons_ne_nil _ _
  · split
    · exact List.cons_ne_nil _ _
    · exact List.cons_ne_nil _ _

/-- A substitution does not lengthen the list. -/
theorem length_substitute_le (l : List α) : (R.substitute l).length ≤ l.length := by
  fun_induction substitute R l with
  | case1 => exact le_rfl
  | case2 x l _ ih => exact Nat.succ_le_succ ih
  | case3 x l c _ _ ih => exact Nat.succ_le_succ ih
  | case4 x l c _ y rest hclosing ih =>
    have hle := R.length_closing_le c l
    rw [hclosing] at hle
    exact Nat.succ_le_succ (ih.trans hle)

/-- Every entry of the result is an entry that stayed, or made of a span. -/
theorem mem_substitute {b : β} {l : List α} (h : b ∈ R.substitute l) :
    (∃ x, b = R.raw x) ∨ ∃ x c span, R.opens x = some c ∧ b = R.made c span := by
  fun_induction substitute R l with
  | case1 => simp at h
  | case2 x l _ ih =>
    rcases List.mem_cons.mp h with rfl | h
    · exact Or.inl ⟨x, rfl⟩
    · exact ih h
  | case3 x l c _ _ ih =>
    rcases List.mem_cons.mp h with rfl | h
    · exact Or.inl ⟨x, rfl⟩
    · exact ih h
  | case4 x l c hopens y rest _ ih =>
    rcases List.mem_cons.mp h with rfl | h
    · exact Or.inr ⟨x, c, _, hopens, rfl⟩
    · exact ih h

/-! ## One pass -/

variable (made : κ → List α → α → β) (go : ℕ → Bool)

/-- What the rewriter passes on from its entry number `j` on: `made` also sees the closing entry,
and `go` says whether entry `j` may still be passed on. -/
def onePass (j : ℕ) : List α → List β
  | [] => []
  | x :: l =>
    if go j = false then []
    else
      match R.opens x with
      | none => R.raw x :: onePass (j + 1) l
      | some c =>
        match h : R.closing c l with
        | [] => []
        | y :: rest =>
          made c (x :: R.inside c l) y ::
            if go (j + 1) = false then [] else R.raw y :: onePass (j + 2) rest
termination_by l => l.length
decreasing_by
  · simp
  · have := R.length_closing_le c l
    rw [h] at this
    simp only [List.length_cons] at this ⊢
    omega

/-- Every span is closed, what closes it opens none, and the closing entry does not change what
is made of it. -/
def Apart : List α → Prop
  | [] => True
  | x :: l =>
    match R.opens x with
    | none => Apart l
    | some c =>
      match _h : R.closing c l with
      | [] => False
      | y :: rest =>
        made c (x :: R.inside c l) y = R.made c (x :: R.inside c l) ∧
          ¬ R.StartsSpan (y :: rest) ∧ Apart rest
termination_by l => l.length
decreasing_by
  · simp
  · have := R.length_closing_le c l
    rw [_h] at this
    simp only [List.length_cons] at this ⊢
    omega

variable {R made go}

/-- A pass that is stopped yields nothing more. -/
theorem onePass_stopped {j : ℕ} (h : go j = false) (l : List α) : R.onePass made go j l = [] := by
  cases l with
  | nil => rw [onePass]
  | cons x l => rw [onePass, if_pos h]

/-- An entry that opens no span is passed on. -/
theorem onePass_raw {j : ℕ} (hgo : go j = true) {x : α} {l : List α} (hopens : R.opens x = none) :
    R.onePass made go j (x :: l) = R.raw x :: R.onePass made go (j + 1) l := by
  rw [onePass, if_neg (by simp [hgo])]
  split
  · rfl
  · rename_i hsome
    rw [hopens] at hsome
    cases hsome

/-- A span that is not closed ends the pass. -/
theorem onePass_unclosed {j : ℕ} {x : α} {l : List α} {c : κ} (hopens : R.opens x = some c)
    (hclosing : R.closing c l = []) : R.onePass made go j (x :: l) = [] := by
  rw [onePass]
  split
  · rfl
  · split
    · rename_i hnone
      rw [hopens] at hnone
      cases hnone
    · rename_i c' hsome
      obtain rfl : c = c' := Option.some.inj (hopens.symm.trans hsome)
      split
      · rfl
      · rename_i hcons
        rw [hclosing] at hcons
        cases hcons

/-- A span is replaced, and its closing entry is passed on when the pass goes on. -/
theorem onePass_span {j : ℕ} (hgo : go j = true) {x y : α} {l rest : List α} {c : κ}
    (hopens : R.opens x = some c) (hclosing : R.closing c l = y :: rest) :
    R.onePass made go j (x :: l) = made c (x :: R.inside c l) y ::
      if go (j + 1) = false then [] else R.raw y :: R.onePass made go (j + 2) rest := by
  rw [onePass, if_neg (by simp [hgo])]
  split
  · rename_i hnone
    rw [hopens] at hnone
    cases hnone
  · rename_i c' hsome
    obtain rfl : c = c' := Option.some.inj (hopens.symm.trans hsome)
    split
    · rename_i hnil
      rw [hclosing] at hnil
      cases hnil
    · rename_i y' rest' hcons
      rw [hclosing, List.cons.injEq] at hcons
      rw [hcons.1, hcons.2]

/-- Every entry that is passed on is one that stayed, or made of a span and what closes it. -/
theorem mem_onePass {b : β} {j : ℕ} {l : List α} (h : b ∈ R.onePass made go j l) :
    (∃ x, b = R.raw x) ∨ ∃ x c span y, R.opens x = some c ∧ b = made c span y := by
  fun_induction onePass R made go j l with
  | case1 => simp at h
  | case2 => simp at h
  | case3 j x l _ _ ih =>
    rcases List.mem_cons.mp h with rfl | h
    · exact Or.inl ⟨x, rfl⟩
    · exact ih h
  | case4 => simp at h
  | case5 j x l _ c hopens y rest _ ih =>
    rcases List.mem_cons.mp h with rfl | h
    · exact Or.inr ⟨x, c, _, y, hopens, rfl⟩
    · split at h
      · simp at h
      · rcases List.mem_cons.mp h with rfl | h
        · exact Or.inl ⟨y, rfl⟩
        · exact ih h

/-- An entry that opens no span keeps nothing apart. -/
theorem apart_raw {x : α} {l : List α} (hopens : R.opens x = none) :
    R.Apart made (x :: l) ↔ R.Apart made l := by
  rw [Apart]
  split
  · exact Iff.rfl
  · rename_i hsome
    rw [hopens] at hsome
    cases hsome

/-- A span that is not closed is not kept apart. -/
theorem not_apart_unclosed {x : α} {l : List α} {c : κ} (hopens : R.opens x = some c)
    (hclosing : R.closing c l = []) : ¬ R.Apart made (x :: l) := by
  rw [Apart]
  split
  · rename_i hnone
    rw [hopens] at hnone
    cases hnone
  · rename_i c' hsome
    obtain rfl : c = c' := Option.some.inj (hopens.symm.trans hsome)
    split
    · exact id
    · rename_i hcons
      rw [hclosing] at hcons
      cases hcons

/-- What a span has to meet, and what follows it. -/
theorem apart_span {x y : α} {l rest : List α} {c : κ} (hopens : R.opens x = some c)
    (hclosing : R.closing c l = y :: rest) :
    R.Apart made (x :: l) ↔ made c (x :: R.inside c l) y = R.made c (x :: R.inside c l) ∧
      ¬ R.StartsSpan (y :: rest) ∧ R.Apart made rest := by
  rw [Apart]
  split
  · rename_i hnone
    rw [hopens] at hnone
    cases hnone
  · rename_i c' hsome
    obtain rfl : c = c' := Option.some.inj (hopens.symm.trans hsome)
    split
    · rename_i hnil
      rw [hclosing] at hnil
      cases hnil
    · rename_i y' rest' hcons
      rw [hclosing, List.cons.injEq] at hcons
      rw [hcons.1, hcons.2]

/-- The first entry of what is made of a list says whether the list starts with a span. -/
theorem substitute_head_raw (hdiff : ∀ x c l, R.raw x ≠ R.made c l) {y : α} {l : List α}
    {rest : List β} (h : R.raw y :: rest = R.substitute (y :: l)) : ¬ R.StartsSpan (y :: l) := by
  rintro ⟨c, hopens, hclosed⟩
  obtain ⟨z, l', hclosing⟩ := List.exists_cons_of_ne_nil hclosed
  rw [R.substitute_span hopens hclosing] at h
  exact hdiff y c _ (List.cons.inj h).1

/-- More entries at the end do not change whether a span starts. -/
theorem startsSpan_append {y : α} {rest : List α} (tail : List α) (h : R.StartsSpan (y :: rest)) :
    R.StartsSpan (y :: (rest ++ tail)) := by
  obtain ⟨c, hopens, hclosed⟩ := h
  obtain ⟨z, l', hclosing⟩ := List.exists_cons_of_ne_nil hclosed
  refine ⟨c, hopens, ?_⟩
  rw [(R.closing_append hclosing tail).1]
  exact List.cons_ne_nil _ _

/-- Where the rewriter sees all of the list but `tail`, it makes of it what it should exactly if
nothing is hidden, the spans are apart and it is not stopped. -/
theorem onePass_eq_substitute_iff (made : κ → List α → α → β) (go : ℕ → Bool)
    (hdiff : ∀ x c l, R.raw x ≠ R.made c l) (tail : List α) (n : ℕ) :
    ∀ (l : List α), l.length ≤ n → ∀ (j : ℕ),
      (R.onePass made go j l = R.substitute (l ++ tail) ↔
        tail = [] ∧ R.Apart made l ∧ ∀ i < (R.substitute l).length, go (j + i) = true) := by
  induction n with
  | zero =>
    intro l hl j
    obtain rfl := List.eq_nil_of_length_eq_zero (Nat.le_zero.mp hl)
    cases tail with
    | nil => simp [onePass, substitute, Apart]
    | cons x tail =>
      have hne := R.substitute_ne_nil x tail
      simp only [onePass, List.nil_append, reduceCtorEq, false_and, iff_false]
      exact fun h => hne h.symm
  | succ n ih =>
    intro l hl j
    cases l with
    | nil => exact ih [] (Nat.zero_le _) j
    | cons x l =>
      have hlen : l.length ≤ n := Nat.le_of_succ_le_succ hl
      have hne := R.substitute_ne_nil x (l ++ tail)
      have hpos := List.length_pos_of_ne_nil (R.substitute_ne_nil x l)
      rw [List.cons_append]
      cases hgo : go j with
      | false =>
        rw [onePass_stopped hgo]
        refine iff_of_false (fun h => hne h.symm) ?_
        rintro ⟨-, -, hall⟩
        exact absurd (hgo.symm.trans (hall 0 hpos)) Bool.false_ne_true
      | true =>
        cases hopens : R.opens x with
        | none =>
          have hstart : ∀ l', ¬ R.StartsSpan (x :: l') := by
            rintro l' ⟨c, hsome, -⟩
            rw [hopens] at hsome
            cases hsome
          rw [onePass_raw hgo hopens, R.substitute_raw (hstart _), R.substitute_raw (hstart _),
            apart_raw hopens, List.cons.injEq, and_iff_right rfl, ih l hlen (j + 1)]
          refine and_congr Iff.rfl (and_congr Iff.rfl ⟨fun h i hi => ?_, fun h i hi => ?_⟩)
          · cases i with
            | zero => exact hgo
            | succ i =>
              have := h i (Nat.lt_of_succ_lt_succ hi)
              rwa [Nat.add_assoc, Nat.add_comm 1] at this
          · have := h (i + 1) (Nat.succ_lt_succ hi)
            rwa [Nat.add_assoc, Nat.add_comm 1]
        | some c =>
          cases hclosing : R.closing c l with
          | nil =>
            rw [onePass_unclosed hopens hclosing]
            exact iff_of_false (fun h => hne h.symm)
              fun h => not_apart_unclosed hopens hclosing h.2.1
          | cons y rest =>
            obtain ⟨hclosing', hinside⟩ := R.closing_append hclosing tail
            have hrest : rest.length ≤ n := by
              have := R.length_closing_le c l
              rw [hclosing, List.length_cons] at this
              omega
            rw [onePass_span hgo hopens hclosing, R.substitute_span hopens hclosing',
              R.substitute_span hopens hclosing, apart_span hopens hclosing, hinside,
              List.cons.injEq]
            cases hgo' : go (j + 1) with
            | false =>
              rw [if_pos rfl]
              refine iff_of_false (fun h => R.substitute_ne_nil _ _ h.2.symm) ?_
              rintro ⟨-, -, hall⟩
              have hpos' := List.length_pos_of_ne_nil (R.substitute_ne_nil y rest)
              have := hall 1 (by rw [List.length_cons]; omega)
              exact absurd (hgo'.symm.trans this) Bool.false_ne_true
            | true =>
              rw [if_neg (by simp)]
              constructor
              · rintro ⟨hmade, htail⟩
                have hfull := substitute_head_raw hdiff htail
                have hshort : ¬ R.StartsSpan (y :: rest) := fun h => hfull (startsSpan_append tail h)
                rw [R.substitute_raw hfull, List.cons.injEq, and_iff_right rfl,
                  ih rest hrest (j + 2)] at htail
                obtain ⟨hnil, hapart, hall⟩ := htail
                refine ⟨hnil, ⟨hmade, hshort, hapart⟩, fun i hi => ?_⟩
                rw [R.substitute_raw hshort] at hi
                match i with
                | 0 => exact hgo
                | 1 => exact hgo'
                | i + 2 =>
                  have := hall i (by simpa using hi)
                  rwa [Nat.add_assoc, Nat.add_comm 2] at this
              · rintro ⟨rfl, ⟨hmade, hshort, hapart⟩, hall⟩
                refine ⟨hmade, ?_⟩
                rw [List.append_nil, R.substitute_raw hshort, List.cons.injEq,
                  and_iff_right rfl]
                have := (ih rest hrest (j + 2)).mpr ⟨rfl, hapart, fun i hi => ?_⟩
                · rwa [List.append_nil] at this
                · have := hall (i + 2) (by
                    rw [R.substitute_raw hshort]
                    simpa using hi)
                  rwa [Nat.add_assoc, Nat.add_comm 2]

end SpanRules

end MacSim.Computation
