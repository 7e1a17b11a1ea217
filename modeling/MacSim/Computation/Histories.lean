import Mathlib.Data.List.Basic
import Mathlib.Tactic

/-!
# Histories

What holds of each entry of a history, given the entries before it, and the answers of an object
to all calls of a history.
-/

set_option autoImplicit false

namespace MacSim.Computation

section Entries

variable {α : Type} {P : List α → α → Prop} {history : List α} {x : α}

/-- Every entry, together with the entries before it, is as `P` says. -/
def AtEach (P : List α → α → Prop) (history : List α) : Prop :=
  ∀ before x behind, history = before ++ x :: behind → P before x

/-- There are no entries in the empty history. -/
theorem atEach_nil : AtEach P [] := fun before _ _ h => by cases before <;> cases h

/-- A history grows by one entry. -/
theorem atEach_append : AtEach P (history ++ [x]) ↔ AtEach P history ∧ P history x := by
  constructor
  · intro h
    refine ⟨fun before y behind hsplit => h before y (behind ++ [x]) ?_, h history x [] rfl⟩
    rw [hsplit, List.append_assoc, List.cons_append]
  · rintro ⟨hhistory, hx⟩ before y behind hsplit
    rcases List.eq_nil_or_concat behind with rfl | ⟨behind, z, rfl⟩
    · obtain ⟨rfl, hxy⟩ := List.append_inj' hsplit rfl
      obtain rfl := List.singleton_inj.mp hxy
      exact hx
    · rw [List.concat_eq_append, ← List.cons_append, ← List.append_assoc] at hsplit
      exact hhistory before y behind (List.append_inj' hsplit rfl).1

end Entries

section Calls

variable {σ γ β : Type}

/-- The state after all calls of a history, with the answers; `none` when one of them does not
return. -/
def serveCalls (serve : σ → γ → Option (σ × β)) (s : σ) (calls : List γ) : Option (σ × List β) :=
  calls.foldlM (fun x call => (serve x.1 call).map fun y => (y.1, x.2 ++ [y.2])) (s, [])

/-- One more call. -/
theorem serveCalls_append (serve : σ → γ → Option (σ × β)) (s : σ) (calls : List γ) (x : γ) :
    serveCalls serve s (calls ++ [x]) = (serveCalls serve s calls).bind fun z =>
      (serve z.1 x).map fun y => (y.1, z.2 ++ [y.2]) := by
  unfold serveCalls
  rw [List.foldlM_append]
  exact bind_congr fun z => bind_pure _

/-- One more call that returned. -/
theorem serveCalls_append_eq_some {serve : σ → γ → Option (σ × β)} {s s' : σ} {calls : List γ}
    {x : γ} {answers : List β} (h : serveCalls serve s (calls ++ [x]) = some (s', answers)) :
    ∃ z before answer, serveCalls serve s calls = some (z, before) ∧
      serve z x = some (s', answer) ∧ answers = before ++ [answer] := by
  rw [serveCalls_append] at h
  obtain ⟨z, hcalls, hx⟩ := Option.bind_eq_some_iff.mp h
  obtain ⟨y, hserve, heq⟩ := Option.map_eq_some_iff.mp hx
  cases heq
  exact ⟨z.1, z.2, y.2, hcalls, hserve, rfl⟩

end Calls

end MacSim.Computation
