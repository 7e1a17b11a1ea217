import Mathlib.Tactic
import MacSim.Computation.Partial
import MacSim.Model.Knobs

/-!
# The resolution of knobs

What a knob should hold is a matter of the calls alone: the value given to it last, or else that
of the nearest ancestor that was given one, or else its default.  The container reaches this with
maps that it applies again and again and with a flag that an inherited value sets as well, so it
holds under a condition on what a call reads and on what was given before.
-/

set_option autoImplicit false

namespace MacSim.Analysis

open MacSim.Model
open MacSim.Computation

variable {V : Type}

/-! ## What was given -/

/-- The values that the arguments of a command line give, up to the first that is incomplete. -/
def givenByArguments : List String → List (String × String)
  | [] => []
  | pArg :: args =>
    if pArg.toList.length < 3 then givenByArguments args
    else if pArg.toList.take 2 = ['-', '-'] then
      match tokenizeString (String.ofList (pArg.toList.drop 2)) '=' with
      | knobName :: value :: _ => (knobName, value) :: givenByArguments args
      | _ => []
    else givenByArguments args

/-- The values that a call gives explicitly, in order. -/
def gives : Knobs.Call → List (String × String)
  | .applyParamFile lines => lines.filterMap fun line => Knobs.entryOf (tokenizeString line ' ')
  | .updateKnob key value => [(key, value)]
  | .applyCommandLineArguments args => givenByArguments args

/-- The text given to each knob last. -/
abbrev Given := String → Option String

/-- What was given after a call. -/
def Given.after (given : Given) (c : Knobs.Call) : Given :=
  (gives c).foldl (fun g entry => Function.update g entry.1 (some entry.2)) given

/-- What was given by a sequence of calls. -/
def givenBy (calls : List Knobs.Call) : Given := calls.foldl Given.after fun _ => none

/-! ## What it resolves to -/

/-- The text of the nearest knob on the way up that was given one, for at most so many steps. -/
def resolveFrom (table : KnobTable V) (given : Given) : ℕ → String → Option String
  | 0, k => given k
  | n + 1, k =>
    match given k with
    | some v => some v
    | none =>
      match table.parentName k with
      | none => none
      | some p => resolveFrom table given n p

/-- The text given to a knob, or else to its nearest ancestor that was given one. -/
def resolve (table : KnobTable V) (given : Given) (k : String) : Option String :=
  resolveFrom table given (table.depth k) k

/-- The value that a knob should have. -/
def resolvedValue (table : KnobTable V) (given : Given) (k : String) : V :=
  match resolve table given k with
  | some v => table.parse k v
  | none => table.default k

/-- Every knob has the value that it should have. -/
def AllResolved (table : KnobTable V) (given : Given) (s : Knobs V) : Prop :=
  ∀ k ∈ table.names, s.value k = resolvedValue table given k

/-- A knob of depth zero has no parent. -/
theorem parentName_of_depth {table : KnobTable V} {k : String} (h : table.depth k = 0) :
    table.parentName k = none := by
  cases hp : table.parentName k with
  | none => rfl
  | some p =>
    have := (table.parent_known k p hp).2
    omega

/-- The number of steps does not matter as long as it reaches the top. -/
theorem resolveFrom_congr (table : KnobTable V) (given : Given) {n m : ℕ} {k : String}
    (hn : table.depth k ≤ n) (hm : table.depth k ≤ m) :
    resolveFrom table given n k = resolveFrom table given m k := by
  induction n generalizing m k with
  | zero =>
    have hparent := parentName_of_depth (Nat.le_zero.mp hn)
    cases m with
    | zero => rfl
    | succ m =>
      rw [resolveFrom, resolveFrom, hparent]
      cases given k <;> rfl
  | succ n ih =>
    cases m with
    | zero =>
      have hparent := parentName_of_depth (Nat.le_zero.mp hm)
      rw [resolveFrom, resolveFrom, hparent]
      cases given k <;> rfl
    | succ m =>
      rw [resolveFrom, resolveFrom]
      cases given k with
      | some v => rfl
      | none =>
        cases hp : table.parentName k with
        | none => rfl
        | some p =>
          have hlt := (table.parent_known k p hp).2
          exact ih (by omega) (by omega)

/-- A knob that was given a text resolves to it, and any other to what its parent resolves to. -/
theorem resolve_eq (table : KnobTable V) (given : Given) (k : String) :
    resolve table given k =
      (given k).or ((table.parentName k).bind (resolve table given)) := by
  rw [resolve, resolveFrom_congr table given le_rfl (Nat.le_succ _), resolveFrom]
  cases given k with
  | some v => rfl
  | none =>
    cases hp : table.parentName k with
    | none => rfl
    | some p =>
      have hlt := (table.parent_known k p hp).2
      exact resolveFrom_congr table given hlt.le le_rfl

/-- A knob that is given has the value it is given. -/
theorem resolve_of_given (table : KnobTable V) {given : Given} {k v : String}
    (h : given k = some v) : resolve table given k = some v := by
  rw [resolve_eq, h, Option.some_or]

/-- A knob that is not given has the value of its parent. -/
theorem resolve_of_parent {table : KnobTable V} {given : Given} {k p : String}
    (h : given k = none) (hp : table.parentName k = some p) :
    resolve table given k = resolve table given p := by
  rw [resolve_eq, h, hp, Option.none_or, Option.bind_some]

/-- A knob that is not given and has no parent has no value of its own. -/
theorem resolve_of_top {table : KnobTable V} {given : Given} {k : String}
    (h : given k = none) (hp : table.parentName k = none) : resolve table given k = none := by
  rw [resolve_eq, h, hp]
  rfl

/-- A knob is another one or below it. -/
inductive Inherits (table : KnobTable V) (a : String) : String → Prop
  | self : Inherits table a a
  | child {k p : String} (hp : table.parentName k = some p) (h : Inherits table a p) :
      Inherits table a k

/-- What is given to one knob concerns only that knob and those below it. -/
theorem resolve_update {table : KnobTable V} {given : Given} {a v k : String}
    (h : ¬ Inherits table a k) :
    resolve table (Function.update given a (some v)) k = resolve table given k := by
  induction hd : table.depth k using Nat.strong_induction_on generalizing k with
  | _ n ih =>
    have hne : k ≠ a := by
      rintro rfl
      exact h .self
    rw [resolve_eq, resolve_eq table given k, Function.update_of_ne hne]
    cases hp : table.parentName k with
    | none => rfl
    | some p =>
      have hlt := (table.parent_known k p hp).2
      have hparent := ih (table.depth p) (by omega) (fun hpa => h (.child hp hpa)) rfl
      rw [Option.bind_some, Option.bind_some, hparent]

/-- A value depends on what is given to the knobs of the table only. -/
theorem resolve_congr {table : KnobTable V} {given given' : Given}
    (h : ∀ k ∈ table.names, given' k = given k) {k : String} (hk : k ∈ table.names) :
    resolve table given' k = resolve table given k := by
  induction hd : table.depth k using Nat.strong_induction_on generalizing k with
  | _ n ih =>
    rw [resolve_eq, resolve_eq table given k, h k hk]
    cases hp : table.parentName k with
    | none => rfl
    | some p =>
      obtain ⟨hpmem, hlt⟩ := table.parent_known k p hp
      rw [Option.bind_some, Option.bind_some, ih (table.depth p) (by omega) hpmem rfl]

/-- What was given is never taken back, so what resolves to a text keeps resolving to one. -/
theorem resolve_mono {table : KnobTable V} {given given' : Given}
    (h : ∀ k, given' k = none → given k = none) {k : String}
    (hk : resolve table given' k = none) : resolve table given k = none := by
  induction hd : table.depth k using Nat.strong_induction_on generalizing k with
  | _ n ih =>
    rw [resolve_eq] at hk ⊢
    obtain ⟨hown, hparent⟩ := Option.or_eq_none_iff.mp hk
    rw [h k hown, Option.none_or]
    cases hp : table.parentName k with
    | none => rfl
    | some p =>
      have hlt := (table.parent_known k p hp).2
      rw [hp, Option.bind_some] at hparent
      exact ih (table.depth p) (by omega) hparent rfl

/-! ## When a call brings every knob up to date -/

/-- A parent's text is there when the pass over the knobs reaches a child: it was given one, or
had inherited one before, or comes first in name order. -/
def AvailableTo (table : KnobTable V) (before after : Given) (p k : String) : Prop :=
  after p ≠ none ∨ resolve table before p ≠ none ∨ p < k

/-- The call that applies `values` fits what was given before and after it. -/
structure CallFits (table : KnobTable V) (before after : Given) (values : TextMap) : Prop where
  /-- no value is applied that has been superseded -/
  latest : ∀ e ∈ values, e.1 ∈ table.names → after e.1 = some e.2
  /-- every new value is applied -/
  applied : ∀ k ∈ table.names, after k ≠ before k → ∃ v, (k, v) ∈ values
  /-- no value changes that a numeric knob has inherited -/
  lasting : ∀ k ∈ table.names, after k = none → table.isString k = false →
    resolve table before k ≠ none → resolve table after k = resolve table before k
  /-- a new value is inherited from a numeric parent that has it in time -/
  passed : ∀ k ∈ table.names, after k = none → ∀ p, table.parentName k = some p →
    resolve table after k ≠ none → resolve table after k = resolve table before k ∨
      table.isString p = false ∧ AvailableTo table before after p k
  /-- no string knob that was given a value has a numeric parent with another one -/
  kept : ∀ k ∈ table.names, table.isString k = true → ∀ v, after k = some v →
    ∀ p, table.parentName k = some p → table.isString p = false →
      AvailableTo table before after p k → ∀ u, resolve table after p = some u → u = v

/-- A knob is up to date, and provided if it is numeric and resolves to a text. -/
structure UpToDate (table : KnobTable V) (given : Given) (s : Knobs V) (k : String) : Prop where
  value : s.value k = resolvedValue table given k
  text : ∀ v, resolve table given k = some v → s.valueString k = v
  provided : s.valueProvided k = (!table.isString k && (resolve table given k).isSome)

/-- Two states do not differ in a knob. -/
structure SameKnob (s s' : Knobs V) (k : String) : Prop where
  value : s'.value k = s.value k
  text : s'.valueString k = s.valueString k
  provided : s'.valueProvided k = s.valueProvided k

/-- A state has the same knob as itself. -/
theorem SameKnob.refl (s : Knobs V) (k : String) : SameKnob s s k := ⟨rfl, rfl, rfl⟩

/-- Having the same knob passes from one state to the next. -/
theorem SameKnob.trans {s s' s'' : Knobs V} {k : String} (h : SameKnob s s' k)
    (h' : SameKnob s' s'' k) : SameKnob s s'' k :=
  ⟨h'.value.trans h.value, h'.text.trans h.text, h'.provided.trans h.provided⟩

/-- A knob stays up to date while it and its value stay the same. -/
theorem UpToDate.of_same {table : KnobTable V} {given given' : Given} {s s' : Knobs V} {k : String}
    (h : UpToDate table given s k) (hsame : SameKnob s s' k)
    (hres : resolve table given' k = resolve table given k) : UpToDate table given' s' k := by
  refine ⟨?_, ?_, ?_⟩
  · rw [hsame.value, h.value, resolvedValue, resolvedValue, hres]
  · rw [hres, hsame.text]
    exact h.text
  · rw [hsame.provided, h.provided, hres]

/-- Setting a knob from a string leaves the others alone. -/
theorem initFromString_other (table : KnobTable V) (s : Knobs V) {k j : String} (v : String)
    (h : j ≠ k) : SameKnob s (s.initFromString table k v) j := by
  refine ⟨by simp [Knobs.initFromString, h], by simp [Knobs.initFromString, h], ?_⟩
  simp only [Knobs.initFromString]
  split_ifs
  · rfl
  · rw [Function.update_of_ne h]

/-- A knob set to the text that it resolves to is up to date. -/
theorem upToDate_init {table : KnobTable V} {given : Given} {s : Knobs V} {k v : String}
    (hres : resolve table given k = some v)
    (hstring : table.isString k = true → s.valueProvided k = false) :
    UpToDate table given (s.initFromString table k v) k := by
  refine ⟨?_, fun u hu => ?_, ?_⟩
  · simp [Knobs.initFromString, resolvedValue, hres]
  · rw [hres] at hu
    simp [Knobs.initFromString, Option.some.inj hu]
  · rw [hres]
    cases hk : table.isString k with
    | true => simp [Knobs.initFromString, hk, hstring hk]
    | false => simp [Knobs.initFromString, hk]

/-! ## The two loops of an application -/

/-- A knob set from a text. -/
structure SetTo (table : KnobTable V) (s s' : Knobs V) (k v : String) : Prop where
  value : s'.value k = table.parse k v
  text : s'.valueString k = v
  provided : s'.valueProvided k = (!table.isString k || s.valueProvided k)

/-- Setting a knob from a string gives it that string. -/
theorem setTo_init (table : KnobTable V) (s : Knobs V) (k v : String) :
    SetTo table s (s.initFromString table k v) k v := by
  refine ⟨by simp [Knobs.initFromString], by simp [Knobs.initFromString], ?_⟩
  cases hk : table.isString k <;> simp [Knobs.initFromString, hk]

/-- The first loop sets the knobs that the map names. -/
theorem applyEntries_spec {table : KnobTable V} {after : Given} {values : TextMap}
    (hlatest : ∀ e ∈ values, e.1 ∈ table.names → after e.1 = some e.2) (s : Knobs V) {k : String}
    (hk : k ∈ table.names) :
    (∀ v, (k, v) ∈ values → SetTo table s (s.applyEntries table values) k v) ∧
      ((∀ v, (k, v) ∉ values) → SameKnob s (s.applyEntries table values) k) := by
  induction values generalizing s with
  | nil => exact ⟨fun _ h => absurd h List.not_mem_nil, fun _ => .refl s k⟩
  | cons e values ih =>
    obtain ⟨j, u⟩ := e
    have hrest := fun s' => ih (fun e he => hlatest e (List.mem_cons_of_mem _ he)) s'
    have hcons : s.applyEntries table ((j, u) :: values) =
        (if j ∈ table.names then s.initFromString table j u else s).applyEntries table values :=
      rfl
    rw [hcons]
    by_cases hj : j = k
    · subst hj
      rw [if_pos hk]
      refine ⟨fun v hv => ?_, fun hnone => absurd List.mem_cons_self (hnone u)⟩
      have hju : after j = some u := hlatest (j, u) List.mem_cons_self hk
      have hjv : after j = some v := hlatest (j, v) hv hk
      obtain rfl : u = v := Option.some.inj (hju.symm.trans hjv)
      have hset := setTo_init table s j u
      by_cases hagain : (j, u) ∈ values
      · have hlater := (hrest (s.initFromString table j u)).1 u hagain
        refine ⟨hlater.value, hlater.text, ?_⟩
        rw [hlater.provided, hset.provided]
        cases table.isString j <;> simp
      · have hsame := (hrest (s.initFromString table j u)).2 fun v hv => by
          have hjv' : after j = some v := hlatest (j, v) (List.mem_cons_of_mem _ hv) hk
          obtain rfl : u = v := Option.some.inj (hju.symm.trans hjv')
          exact hagain hv
        exact ⟨hsame.value.trans hset.value, hsame.text.trans hset.text,
          hsame.provided.trans hset.provided⟩
    · have hstep : SameKnob s (if j ∈ table.names then s.initFromString table j u else s) k := by
        split_ifs
        · exact initFromString_other table s u (Ne.symm hj)
        · exact .refl s k
      generalize (if j ∈ table.names then s.initFromString table j u else s) = s₁ at hstep
      refine ⟨fun v hv => ?_, fun hnone => ?_⟩
      · rcases List.mem_cons.mp hv with heq | hv
        · exact absurd (Prod.mk.inj heq).1.symm hj
        · have hset := (hrest s₁).1 v hv
          refine ⟨hset.value, hset.text, ?_⟩
          rw [hset.provided, hstep.provided]
      · exact hstep.trans ((hrest s₁).2 fun v hv => hnone v (List.mem_cons_of_mem _ hv))

/-- Before the pass over the knobs, those that were given a text have it, and the others are
as they were. -/
structure Entered (table : KnobTable V) (before after : Given) (s : Knobs V) (k : String) :
    Prop where
  own : ∀ v, after k = some v → s.value k = table.parse k v ∧ s.valueString k = v ∧
    s.valueProvided k = !table.isString k
  others : after k = none → UpToDate table before s k

/-- After the entries of a call every knob is as it was entered. -/
theorem entered_applyEntries {table : KnobTable V} {before after : Given} {values : TextMap}
    (hfit : CallFits table before after values) {s : Knobs V}
    (h : ∀ k ∈ table.names, UpToDate table before s k) {k : String} (hk : k ∈ table.names) :
    Entered table before after (s.applyEntries table values) k := by
  obtain ⟨hset, hsame⟩ := applyEntries_spec hfit.latest s hk
  have hup := h k hk
  refine ⟨fun v hv => ?_, fun hnone => ?_⟩
  · by_cases hin : ∃ u, (k, u) ∈ values
    · obtain ⟨u, hu⟩ := hin
      obtain rfl : u = v := Option.some.inj ((hfit.latest (k, u) hu hk).symm.trans hv)
      have hs := hset u hu
      refine ⟨hs.value, hs.text, ?_⟩
      rw [hs.provided, hup.provided]
      cases table.isString k <;> simp
    · have hold : before k = some v := by
        rw [← hv]
        by_contra hne
        exact hin (hfit.applied k hk fun heq => hne heq.symm)
      have hs := hsame fun u hu => hin ⟨u, hu⟩
      have hres := resolve_of_given table hold
      refine ⟨?_, ?_, ?_⟩
      · rw [hs.value, hup.value, resolvedValue, hres]
      · rw [hs.text, hup.text v hres]
      · rw [hs.provided, hup.provided, hres]
        simp
  · have hnot : ∀ v, (k, v) ∉ values := by
      intro v hv
      have := hfit.latest (k, v) hv hk
      rw [hnone] at this
      cases this
    exact hup.of_same (hsame hnot) rfl

/-- What the pass sees of a parent when it reaches a child: the parent counts as provided exactly
when it is numeric, resolves to a text and has it in time, and then it shows that text. -/
structure ParentSeen (table : KnobTable V) (before after : Given) (s : Knobs V) (p k : String) :
    Prop where
  provided : s.valueProvided p = true ↔
    table.isString p = false ∧ AvailableTo table before after p k ∧ resolve table after p ≠ none
  text : s.valueProvided p = true → resolve table after p = some (s.valueString p)

/-- A parent that the pass has been at. -/
theorem parentSeen_done {table : KnobTable V} {before after : Given} {s : Knobs V} {p k : String}
    (h : UpToDate table after s p) (hpk : p < k) : ParentSeen table before after s p k := by
  have hiff : s.valueProvided p = true ↔
      table.isString p = false ∧ resolve table after p ≠ none := by
    rw [h.provided, Bool.and_eq_true, Bool.not_eq_true', Option.isSome_iff_ne_none]
  refine ⟨?_, fun hprov => ?_⟩
  · rw [hiff]
    exact ⟨fun hp => ⟨hp.1, Or.inr (Or.inr hpk), hp.2⟩, fun hp => ⟨hp.1, hp.2.2⟩⟩
  · obtain ⟨v, hv⟩ := Option.ne_none_iff_exists'.mp (hiff.mp hprov).2
    rw [hv, h.text v hv]

/-- A parent that the pass comes to later. -/
theorem parentSeen_ahead {table : KnobTable V} {before after : Given} {values : TextMap}
    {s : Knobs V} {p k : String} (hfit : CallFits table before after values)
    (hmono : ∀ k, after k = none → before k = none) (hp : p ∈ table.names)
    (h : Entered table before after s p) (hpk : ¬ p < k) :
    ParentSeen table before after s p k := by
  cases hgiven : after p with
  | some v =>
    have hres := resolve_of_given table hgiven
    obtain ⟨-, htext, hprov⟩ := h.own v hgiven
    refine ⟨?_, fun _ => by rw [hres, htext]⟩
    rw [hprov, Bool.not_eq_true', hres]
    exact ⟨fun hs => ⟨hs, Or.inl (by simp [hgiven]), by simp⟩, fun hs => hs.1⟩
  | none =>
    have hup := h.others hgiven
    have hiff : s.valueProvided p = true ↔
        table.isString p = false ∧ resolve table before p ≠ none := by
      rw [hup.provided, Bool.and_eq_true, Bool.not_eq_true', Option.isSome_iff_ne_none]
    refine ⟨?_, fun hprov => ?_⟩
    · rw [hiff]
      constructor
      · intro hs
        exact ⟨hs.1, Or.inr (Or.inl hs.2), fun hnone => hs.2 (resolve_mono hmono hnone)⟩
      · rintro ⟨hs, havail, -⟩
        rcases havail with hown | hold | hlt
        · exact absurd hgiven hown
        · exact ⟨hs, hold⟩
        · exact absurd hlt hpk
    · obtain ⟨hs, hold⟩ := hiff.mp hprov
      obtain ⟨v, hv⟩ := Option.ne_none_iff_exists'.mp hold
      rw [hfit.lasting p hp hgiven hs hold, hv, hup.text v hv]

/-- The pass brings a knob up to date. -/
theorem inherit_upToDate {table : KnobTable V} {before after : Given} {values : TextMap}
    {s : Knobs V} {k : String} (hfit : CallFits table before after values)
    (hmono : ∀ k, after k = none → before k = none) (hk : k ∈ table.names)
    (h : Entered table before after s k)
    (hparent : ∀ p, table.parentName k = some p → ParentSeen table before after s p k) :
    UpToDate table after (s.inherit table k) k := by
  -- without a change by the pass, a knob with a text of its own is up to date
  have hown : ∀ v, after k = some v → UpToDate table after s k := by
    intro v hv
    have hres := resolve_of_given table hv
    obtain ⟨hvalue, htext, hprov⟩ := h.own v hv
    refine ⟨by rw [hvalue, resolvedValue, hres], fun u hu => ?_, by rw [hprov, hres]; simp⟩
    rw [htext]
    exact Option.some.inj (hres.symm.trans hu)
  cases hp : table.parentName k with
  | none =>
    have heq : s.inherit table k = s := by rw [Knobs.inherit, hp]
    rw [heq]
    cases hgiven : after k with
    | some v => exact hown v hgiven
    | none =>
      refine (h.others hgiven).of_same (.refl s k) ?_
      rw [resolve_of_top hgiven hp, resolve_of_top (hmono k hgiven) hp]
  | some p =>
    obtain ⟨hprov, htext⟩ := hparent p hp
    have heq : s.inherit table k =
        if s.valueProvided p = true ∧ s.valueProvided k = false then
          s.initFromString table k (s.valueString p) else s := by rw [Knobs.inherit, hp]
    rw [heq]
    cases hgiven : after k with
    | some v =>
      split_ifs with hcond
      · -- only a string knob with a text of its own is not provided
        have hstring : table.isString k = true := by
          have := (h.own v hgiven).2.2
          rw [hcond.2] at this
          simpa using this.symm
        obtain ⟨hnum, havail, -⟩ := hprov.mp hcond.1
        have heqv := hfit.kept k hk hstring v hgiven p hp hnum havail _ (htext hcond.1)
        rw [heqv]
        exact upToDate_init (resolve_of_given _ hgiven) fun _ => hcond.2
      · exact hown v hgiven
    | none =>
      have hup := h.others hgiven
      have hres := resolve_of_parent hgiven hp
      split_ifs with hcond
      · exact upToDate_init (hres.trans (htext hcond.1)) fun _ => hcond.2
      · refine hup.of_same (.refl s k) ?_
        by_cases hprovided : s.valueProvided k = true
        · rw [hup.provided, Bool.and_eq_true, Bool.not_eq_true', Option.isSome_iff_ne_none]
            at hprovided
          exact hfit.lasting k hk hgiven hprovided.1 hprovided.2
        · by_cases hnone : resolve table after k = none
          · rw [hnone, resolve_mono hmono hnone]
          · rcases hfit.passed k hk hgiven p hp hnone with hsame | ⟨hnum, havail⟩
            · exact hsame
            · have hseen := hprov.mpr ⟨hnum, havail, fun hpn => hnone (hres.trans hpn)⟩
              exact absurd ⟨hseen, by simpa using hprovided⟩ hcond

/-- Inheriting a value leaves the other knobs alone. -/
theorem inherit_other (table : KnobTable V) (s : Knobs V) {k j : String} (h : j ≠ k) :
    SameKnob s (s.inherit table k) j := by
  rw [Knobs.inherit]
  cases table.parentName k with
  | none => exact .refl s j
  | some p =>
    dsimp only
    split_ifs
    · exact initFromString_other table s _ h
    · exact .refl s j

/-- The pass over the knobs in name order: those behind it are up to date, those ahead as they
were. -/
theorem foldl_inherit {table : KnobTable V} {before after : Given} {values : TextMap}
    (hfit : CallFits table before after values) (hmono : ∀ k, after k = none → before k = none)
    {d rest : List String} (hnames : table.names = d ++ rest) {s : Knobs V}
    (hdone : ∀ k ∈ d, UpToDate table after s k)
    (hrest : ∀ k ∈ rest, Entered table before after s k) :
    ∀ k ∈ table.names, UpToDate table after (rest.foldl (Knobs.inherit table) s) k := by
  induction rest generalizing d s with
  | nil =>
    rw [hnames, List.append_nil]
    exact hdone
  | cons k rest ih =>
    have hk : k ∈ table.names := by simp [hnames]
    have hsorted := table.sorted
    rw [hnames, List.pairwise_append, List.pairwise_cons] at hsorted
    obtain ⟨-, ⟨hkrest, -⟩, hbefore⟩ := hsorted
    have hparent : ∀ p, table.parentName k = some p → ParentSeen table before after s p k := by
      intro p hp
      obtain ⟨hpmem, hlt⟩ := table.parent_known k p hp
      rw [hnames] at hpmem
      rcases List.mem_append.mp hpmem with hpd | hpr
      · exact parentSeen_done (hdone p hpd) (hbefore p hpd k List.mem_cons_self)
      · refine parentSeen_ahead hfit hmono (table.parent_known k p hp).1 (hrest p hpr) ?_
        rcases List.mem_cons.mp hpr with rfl | hpr
        · exact lt_irrefl _
        · exact (hkrest p hpr).asymm
    refine ih (d := d ++ [k]) (by rw [hnames, List.append_assoc]; rfl) (fun j hj => ?_)
      fun j hj => ?_
    · rcases List.mem_append.mp hj with hj | hj
      · have hne : j ≠ k := (hbefore j hj k List.mem_cons_self).ne
        exact (hdone j hj).of_same (inherit_other table s hne) rfl
      · rw [List.mem_singleton.mp hj]
        exact inherit_upToDate hfit hmono hk (hrest k List.mem_cons_self) hparent
    · have hne : j ≠ k := (hkrest j hj).ne'
      have hsame := inherit_other table s hne
      have hold := hrest j (List.mem_cons_of_mem _ hj)
      refine ⟨fun v hv => ?_, fun hnone => (hold.others hnone).of_same hsame rfl⟩
      obtain ⟨hvalue, htext, hprov⟩ := hold.own v hv
      exact ⟨hsame.value.trans hvalue, hsame.text.trans htext, hsame.provided.trans hprov⟩

/-- An application that fits brings every knob up to date. -/
theorem applyValues_upToDate {table : KnobTable V} {before after : Given} {values : TextMap}
    (hfit : CallFits table before after values) (hmono : ∀ k, after k = none → before k = none)
    {s : Knobs V} (h : ∀ k ∈ table.names, UpToDate table before s k) :
    ∀ k ∈ table.names, UpToDate table after (s.applyValuesToKnobs table values) k := by
  rw [Knobs.applyValuesToKnobs]
  split_ifs with hempty
  · have hsame : ∀ k ∈ table.names, after k = before k := by
      intro k hk
      by_contra hne
      obtain ⟨v, hv⟩ := hfit.applied k hk hne
      rw [hempty] at hv
      cases hv
    exact fun k hk => (h k hk).of_same (.refl s k) (resolve_congr hsame hk)
  · exact foldl_inherit (d := []) hfit hmono rfl (fun k hk => absurd hk List.not_mem_nil)
      fun k hk => entered_applyEntries hfit h hk

/-! ## Runs -/

/-- What was given before a call is given after it. -/
theorem after_mono (given : Given) (c : Knobs.Call) {k : String}
    (h : given.after c k = none) : given k = none := by
  rw [Given.after] at h
  generalize gives c = entries at h
  induction entries generalizing given with
  | nil => exact h
  | cons e entries ih =>
    have hstep := ih (Function.update given e.1 (some e.2)) h
    by_cases hk : k = e.1
    · subst hk
      simp at hstep
    · rwa [Function.update_of_ne hk] at hstep

/-- Every call of a run fits what was given before it. -/
def CallsFit (table : KnobTable V) (given : Given) (s : Knobs V) (calls : List Knobs.Call) : Prop :=
  EachStep (fun x c => some (x.1.after c, x.2.call table c))
    (fun x c => CallFits table x.1 (x.1.after c) (x.2.read c).2) (given, s) calls

/-- The first calls of a run whose calls fit. -/
theorem CallsFit.take {table : KnobTable V} {given : Given} {s : Knobs V} {calls : List Knobs.Call}
    (h : CallsFit table given s calls) (n : ℕ) : CallsFit table given s (calls.take n) := by
  rw [← List.take_append_drop n calls] at h
  exact h.append.1

/-- What a call reads changes no knob. -/
theorem read_knobs (s : Knobs V) (c : Knobs.Call) (k : String) : SameKnob s (s.read c).1 k := by
  have hentry : ∀ (s : Knobs V) (text : String), SameKnob s (s.createEntryFromtext text) k := by
    intro s text
    rw [Knobs.createEntryFromtext]
    split <;> exact ⟨rfl, rfl, rfl⟩
  cases c with
  | applyParamFile lines =>
    have hfold : ∀ (lines : List String) (s : Knobs V),
        SameKnob s (lines.foldl Knobs.createEntryFromtext s) k := by
      intro lines
      induction lines with
      | nil => exact fun s => .refl s k
      | cons line lines ih => exact fun s => (hentry s line).trans (ih _)
    exact hfold lines s
  | updateKnob key value => exact hentry s _
  | applyCommandLineArguments args =>
    have hfold : ∀ (args : List String) (s : Knobs V), SameKnob s (s.readArguments args).1 k := by
      intro args
      induction args with
      | nil => exact fun s => .refl s k
      | cons arg args ih =>
        intro s
        rw [Knobs.readArguments]
        split_ifs
        · exact ih s
        · dsimp only
          split
          · refine SameKnob.trans ?_ (ih _)
            exact ⟨rfl, rfl, rfl⟩
          · exact ⟨rfl, rfl, rfl⟩
        · exact ih s
    exact hfold args s

/-- A call that fits keeps every knob up to date. -/
theorem call_upToDate {table : KnobTable V} {given : Given} {s : Knobs V} {c : Knobs.Call}
    (hfit : CallFits table given (given.after c) (s.read c).2)
    (h : ∀ k ∈ table.names, UpToDate table given s k) :
    ∀ k ∈ table.names, UpToDate table (given.after c) (s.call table c) k :=
  applyValues_upToDate hfit (fun _ => after_mono given c)
    fun k hk => (h k hk).of_same (read_knobs s c k) rfl

/-- Calls that fit keep every knob up to date. -/
theorem run_upToDate {table : KnobTable V} {given : Given} {s : Knobs V} {calls : List Knobs.Call}
    (hfits : CallsFit table given s calls) (h : ∀ k ∈ table.names, UpToDate table given s k) :
    ∀ k ∈ table.names, UpToDate table (calls.foldl Given.after given) (s.run table calls) k := by
  induction calls generalizing given s with
  | nil => exact h
  | cons c calls ih => exact ih (hfits.2 _ rfl) (call_upToDate hfits.1 h)

/-- With nothing given no knob has a value. -/
theorem resolve_none (table : KnobTable V) (k : String) :
    resolve table (fun _ => none) k = none := by
  induction hd : table.depth k using Nat.strong_induction_on generalizing k with
  | _ n ih =>
    rw [resolve_eq]
    cases hp : table.parentName k with
    | none => rfl
    | some p =>
      have hlt := (table.parent_known k p hp).2
      rw [Option.none_or, Option.bind_some]
      exact ih (table.depth p) (by omega) p rfl

/-- At the start every knob is up to date. -/
theorem upToDate_initial (table : KnobTable V) (k : String) :
    UpToDate table (fun _ => none) (Knobs.init table) k := by
  have hnone := resolve_none table k
  refine ⟨by rw [resolvedValue, hnone]; rfl, fun v hv => ?_, by rw [hnone]; simp [Knobs.init]⟩
  rw [hnone] at hv
  cases hv

/-- Knob resolution: in a run whose calls all fit what was given before them, every knob has at
every point the value that was given to it last, or else that of its nearest ancestor that was
given one, or else its default; and an update of one knob changes only that knob and those
below it. -/
theorem knobs_resolve_when_calls_fit (table : KnobTable V) (calls : List Knobs.Call)
    (hfits : CallsFit table (fun _ => none) (Knobs.init table) calls) :
    (∀ n, AllResolved table (givenBy (calls.take n)) ((Knobs.init table).run table (calls.take n))) ∧
      ∀ key value, CallFits table (givenBy calls) ((givenBy calls).after (.updateKnob key value))
          (((Knobs.init table).run table calls).read (.updateKnob key value)).2 →
        ∀ k ∈ table.names,
          (((Knobs.init table).run table calls).call table (.updateKnob key value)).value k ≠
            ((Knobs.init table).run table calls).value k → Inherits table key k := by
  have hstart : ∀ k ∈ table.names, UpToDate table (fun _ => none) (Knobs.init table) k :=
    fun k _ => upToDate_initial table k
  refine ⟨fun n k hk => (run_upToDate (hfits.take n) hstart k hk).value,
    fun key value hfit k hk hne => ?_⟩
  have hup := run_upToDate hfits hstart
  by_contra hnot
  refine hne ?_
  have hsame : resolve table ((givenBy calls).after (.updateKnob key value)) k =
      resolve table (givenBy calls) k := resolve_update hnot
  have hafter := (call_upToDate hfit hup k hk).value
  have hbefore := (hup k hk).value
  rw [hafter, hbefore, resolvedValue, resolvedValue, hsame]
  rfl

/-- Two numeric knobs, the second below the first. -/
def twoKnobs : KnobTable String where
  names := ["a", "b"]
  sorted := by decide
  parentName := fun k => if k = "b" then some "a" else none
  depth := fun k => if k = "b" then 1 else 0
  parent_known := by
    intro k p hp
    split_ifs at hp with hk
    obtain rfl : "a" = p := Option.some.inj hp
    exact ⟨by decide, by simp [hk]⟩
  isString := fun _ => false
  parse := fun _ strVal => strVal
  default := fun _ => "0"

/-- A file that gives the parent a value, which the child inherits. -/
theorem knobs_resolve_file :
    ((Knobs.init twoKnobs).run twoKnobs [.applyParamFile ["a 1"]]).value "b" = "1" := by
  have hfits : CallsFit twoKnobs (fun _ => none) (Knobs.init twoKnobs) [.applyParamFile ["a 1"]] := by
    have hread : ((Knobs.init twoKnobs).read (.applyParamFile ["a 1"])).2 = [("a", "1")] := by
      decide
    have hafter : Given.after (fun _ => none) (.applyParamFile ["a 1"]) =
        Function.update (fun _ => none) "a" (some "1") := rfl
    refine ⟨?_, fun _ _ => trivial⟩
    dsimp only
    rw [hread, hafter]
    refine ⟨by decide, ?_, ?_, ?_, fun _ _ hstring => absurd hstring Bool.false_ne_true⟩
    · intro k _ hne
      by_cases hk : k = "a"
      · exact ⟨"1", by simp [hk]⟩
      · simp [hk] at hne
    · intro k _ _ _ hold
      exact absurd (resolve_none twoKnobs k) hold
    · intro k hk hnone p hp _
      refine Or.inr ⟨rfl, Or.inl ?_⟩
      obtain rfl : p = "a" := by
        simp only [twoKnobs] at hp
        split_ifs at hp
        exact (Option.some.inj hp).symm
      decide
  exact (knobs_resolve_when_calls_fit twoKnobs _ hfits).1 1 "b" (by decide)

/-- After a command line, an update of `b` reads the command line's last argument instead: the
tokens of that argument are still in the tokenizer. -/
theorem knobs_lose_update :
    ¬ AllResolved twoKnobs
      (givenBy [.applyCommandLineArguments ["--a=1"], .updateKnob "b" "2"])
      ((Knobs.init twoKnobs).run twoKnobs
        [.applyCommandLineArguments ["--a=1"], .updateKnob "b" "2"]) := by
  intro h
  have hb := h "b" (by decide)
  revert hb
  decide

end MacSim.Analysis
