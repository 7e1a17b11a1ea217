import Mathlib.Data.List.Basic
import Mathlib.Data.List.Nodup
import Mathlib.Tactic

/-!
# Bounded stores with least-recently-used replacement

A store for `n` keys is a list of keys with values, the most recently used one first.  A
request fails where its precondition does.  `lastUse` reads off a history of requests when a
key was used last; the list of every reachable store is in this order.

The first section is about runs of requests with outputs, for any two systems of which one
simulates the other.
-/

set_option autoImplicit false

namespace MacSim.Computation

/-! ## Runs with outputs -/

section Runs

variable {σ τ α ρ : Type}

/-- The outputs of a list of requests, and the state after the last one. -/
def runOps (step : σ → α → Option (ρ × σ)) : σ → List α → Option (List ρ × σ)
  | s, [] => some ([], s)
  | s, a :: l => (step s a).bind fun r => (runOps step r.2 l).map fun q => (r.1 :: q.1, q.2)

variable {step : σ → α → Option (ρ × σ)}

/-- A run of two lists of operations is a run of the second after the first. -/
theorem runOps_append (s : σ) (l l' : List α) :
    runOps step s (l ++ l') =
      (runOps step s l).bind fun r => (runOps step r.2 l').map fun q => (r.1 ++ q.1, q.2) := by
  induction l generalizing s with
  | nil => simp [runOps]
  | cons a l ih =>
      simp only [List.cons_append, runOps]
      cases step s a with
      | none => rfl
      | some r =>
          simp only [Option.bind_some, ih]
          cases runOps step r.2 l with
          | none => rfl
          | some q => simp [Function.comp_def]

/-- The last request of a run. -/
theorem runOps_concat_eq_some {s s' : σ} {l : List α} {a : α} {outs : List ρ}
    (h : runOps step s (l ++ [a]) = some (outs, s')) :
    ∃ outs' m x, runOps step s l = some (outs', m) ∧ step m a = some (x, s') ∧
      outs = outs' ++ [x] := by
  rw [runOps_append] at h
  obtain ⟨⟨outs', m⟩, hm, hlast⟩ := Option.bind_eq_some_iff.mp h
  obtain ⟨⟨xs, m'⟩, hstep, heq⟩ := Option.map_eq_some_iff.mp hlast
  obtain ⟨⟨x, m''⟩, hx, hnil⟩ := Option.bind_eq_some_iff.mp hstep
  simp only [runOps, Option.map_some, Option.some.injEq, Prod.mk.injEq] at hnil heq
  obtain ⟨rfl, rfl⟩ := hnil
  obtain ⟨rfl, rfl⟩ := heq
  exact ⟨outs', m, x, hm, hx, rfl⟩

/-- A run is extended by one operation. -/
theorem runOps_concat {s m s' : σ} {l : List α} {a : α} {outs : List ρ} {x : ρ}
    (hm : runOps step s l = some (outs, m)) (hx : step m a = some (x, s')) :
    runOps step s (l ++ [a]) = some (outs ++ [x], s') := by
  simp [runOps_append, hm, runOps, hx]

/-- A beginning of a run that succeeds succeeds. -/
theorem runOps_isSome_of_append {s : σ} {l l' : List α}
    (h : (runOps step s (l ++ l')).isSome) : (runOps step s l).isSome := by
  rw [runOps_append] at h
  exact Option.isSome_of_isSome_bind h

/-- Two states that every request leaves alike, with one output, have the same outputs. -/
theorem runOps_outputs_eq {R : σ → σ → Prop}
    (hstep : ∀ s s' a, R s s' →
      Option.Rel (fun x y => x.1 = y.1 ∧ R x.2 y.2) (step s a) (step s' a))
    {s s' : σ} (h : R s s') (l : List α) :
    (runOps step s l).map Prod.fst = (runOps step s' l).map Prod.fst := by
  induction l generalizing s s' with
  | nil => rfl
  | cons a l ih =>
      have hrel := hstep s s' a h
      simp only [runOps]
      cases hs : step s a with
      | none =>
          cases hs' : step s' a with
          | none => rfl
          | some y => rw [hs, hs'] at hrel; cases hrel
      | some x =>
          cases hs' : step s' a with
          | none => rw [hs, hs'] at hrel; cases hrel
          | some y =>
              rw [hs, hs'] at hrel
              obtain ⟨hout, hnext⟩ : x.1 = y.1 ∧ R x.2 y.2 := by
                cases hrel with
                | some hxy => exact hxy
              have hrest := ih hnext
              simp only [Option.bind_some, Option.map_map]
              have houts {z : ρ} {o : Option (List ρ × σ)} :
                  o.map (Prod.fst ∘ fun q : List ρ × σ => (z :: q.1, q.2)) =
                    (o.map Prod.fst).map (z :: ·) := by
                rw [Option.map_map]
                rfl
              rw [houts, houts, hrest, hout]

end Runs

/-! ## The store -/

/-- Requests to a store. -/
inductive LruOp (κ β : Type) where
  | lookup (key : κ)
  | touch (key : κ)
  | read (key : κ)
  | insert (key : κ) (value : β)
  | drop (key : κ)
  | victim

/-- What a request returns. -/
inductive LruOut (κ β : Type) where
  | done
  | found (b : Bool)
  | value (v : β)
  | victim (key : κ)
  deriving DecidableEq

variable {κ β : Type} [DecidableEq κ]

/-- One request to a store for `n` keys. -/
def LruOp.exec (n : ℕ) (l : List (κ × β)) : LruOp κ β → Option (LruOut κ β × List (κ × β))
  | .lookup key => some (.found (l.lookup key).isSome, l)
  | .touch key => (l.lookup key).map fun v => (.done, (key, v) :: l.filter (·.1 ≠ key))
  | .read key => (l.lookup key).map fun v => (.value v, (key, v) :: l.filter (·.1 ≠ key))
  | .insert key v =>
      if (l.lookup key).isSome then none
      else some (.done, (key, v) :: if l.length < n then l else l.dropLast)
  | .drop key => some (.done, l.filter (·.1 ≠ key))
  | .victim => l.getLast?.map fun x => (.victim x.1, l.dropLast)

omit [DecidableEq κ] in
/-- The key that a request uses. -/
def LruOp.used : LruOp κ β → Option κ
  | .touch key | .read key | .insert key _ => some key
  | .lookup _ | .drop _ | .victim => none

/-- The number of requests up to the last use of a key, `0` if there was none. -/
def lastUse (ops : List (LruOp κ β)) (key : κ) : ℕ :=
  ops.length - ops.reverse.findIdx fun op => op.used = some key

/-- The last use of a key after one more operation. -/
theorem lastUse_concat (ops : List (LruOp κ β)) (op : LruOp κ β) (key : κ) :
    lastUse (ops ++ [op]) key =
      if op.used = some key then ops.length + 1 else lastUse ops key := by
  simp only [lastUse, List.length_append, List.length_singleton, List.reverse_append,
    List.reverse_singleton, List.singleton_append, List.findIdx_cons]
  by_cases h : op.used = some key
  · simp [h]
  · simp [h]

/-- A last use lies in the history. -/
theorem lastUse_le (ops : List (LruOp κ β)) (key : κ) : lastUse ops key ≤ ops.length :=
  Nat.sub_le _ _

/-- The keys stand in the order of their last use, the latest one first. -/
def ByRecency (ops : List (LruOp κ β)) (l : List (κ × β)) : Prop :=
  l.Pairwise fun a b => lastUse ops b.1 < lastUse ops a.1

variable {ops : List (LruOp κ β)} {l l' : List (κ × β)} {n : ℕ}

/-- A request that uses no key leaves the order of what stays. -/
theorem ByRecency.sublist (h : ByRecency ops l) (hl : l'.Sublist l) {op : LruOp κ β}
    (hop : op.used = none) : ByRecency (ops ++ [op]) l' := by
  unfold ByRecency
  simp only [lastUse_concat, hop, reduceCtorEq, if_false]
  exact List.Pairwise.sublist hl h

/-- The key that a request uses comes to the front. -/
theorem ByRecency.cons (h : ByRecency ops l) (hl : l'.Sublist l) {op : LruOp κ β} {key : κ}
    (hop : op.used = some key) (hkey : ∀ b ∈ l', b.1 ≠ key) (v : β) :
    ByRecency (ops ++ [op]) ((key, v) :: l') := by
  have hold (b : κ × β) (hb : b ∈ l') : lastUse (ops ++ [op]) b.1 = lastUse ops b.1 := by
    rw [lastUse_concat, hop, if_neg fun he => hkey b hb (Option.some_inj.mp he).symm]
  refine List.pairwise_cons.mpr ⟨fun b hb => ?_, ?_⟩
  · rw [hold b hb, lastUse_concat, if_pos hop]
    exact Nat.lt_succ_of_le (lastUse_le ops b.1)
  · refine (List.Pairwise.sublist hl h).imp_of_mem fun ha hb hlt => ?_
    rw [hold _ ha, hold _ hb]
    exact hlt

/-- A key that is not found is the key of no entry. -/
theorem lookup_eq_none_keys {key : κ} (h : (l.lookup key).isSome = false) :
    ∀ b ∈ l, b.1 ≠ key := by
  intro b hb heq
  have hnone : l.lookup key = none := by simpa using h
  exact absurd heq.symm (by simpa using List.lookup_eq_none_iff.mp hnone b hb)

/-- One request: the store stays in order and within its bound. -/
theorem LruOp.exec_byRecency (hn : 1 ≤ n) {op : LruOp κ β} {x : LruOut κ β}
    (h : ByRecency ops l) (hlen : l.length ≤ n) (hx : op.exec n l = some (x, l')) :
    ByRecency (ops ++ [op]) l' ∧ l'.length ≤ n := by
  have hfront {key : κ} {v : β} (hv : l.lookup key = some v) (hop : op.used = some key) :
      ByRecency (ops ++ [op]) ((key, v) :: l.filter (·.1 ≠ key)) ∧
        ((key, v) :: l.filter (·.1 ≠ key)).length ≤ n := by
    have hmem : (key, v) ∈ l := by
      obtain ⟨l₁, l₂, rfl, -⟩ := List.lookup_eq_some_iff.mp hv
      simp
    refine ⟨h.cons List.filter_sublist hop (fun b hb => by simpa using (List.mem_filter.mp hb).2) v,
      ?_⟩
    have hlt : (l.filter (·.1 ≠ key)).length < l.length :=
      List.length_filter_lt_length_iff_exists.mpr ⟨(key, v), hmem, by simp⟩
    rw [List.length_cons]
    omega
  cases op with
  | lookup key =>
      obtain ⟨-, rfl⟩ := Prod.mk.inj (Option.some_inj.mp hx)
      exact ⟨h.sublist (List.Sublist.refl _) rfl, hlen⟩
  | touch key =>
      obtain ⟨v, hv, heq⟩ := Option.map_eq_some_iff.mp hx
      rw [← (Prod.mk.inj heq).2]
      exact hfront hv rfl
  | read key =>
      obtain ⟨v, hv, heq⟩ := Option.map_eq_some_iff.mp hx
      rw [← (Prod.mk.inj heq).2]
      exact hfront hv rfl
  | insert key v =>
      simp only [LruOp.exec] at hx
      split at hx
      · cases hx
      · rename_i hnone
        have hkeys := lookup_eq_none_keys (Bool.eq_false_iff.mpr hnone)
        rw [← (Prod.mk.inj (Option.some_inj.mp hx)).2]
        split
        · exact ⟨h.cons (List.Sublist.refl l) rfl hkeys v, by rw [List.length_cons]; omega⟩
        · refine ⟨h.cons (List.dropLast_sublist l) rfl
            (fun b hb => hkeys b (List.mem_of_mem_dropLast hb)) v, ?_⟩
          rw [List.length_cons, List.length_dropLast]
          omega
  | drop key =>
      obtain ⟨-, rfl⟩ := Prod.mk.inj (Option.some_inj.mp hx)
      exact ⟨h.sublist List.filter_sublist rfl, (List.length_filter_le _ l).trans hlen⟩
  | victim =>
      obtain ⟨y, -, heq⟩ := Option.map_eq_some_iff.mp hx
      rw [← (Prod.mk.inj heq).2]
      exact ⟨h.sublist (List.dropLast_sublist l) rfl,
        (List.dropLast_sublist l).length_le.trans hlen⟩

/-- The stores that requests lead to are in the order of use and within their bound. -/
theorem runOps_byRecency (hn : 1 ≤ n) {outs : List (LruOut κ β)}
    (h : runOps (fun l op => LruOp.exec n l op) [] ops = some (outs, l)) :
    ByRecency ops l ∧ l.length ≤ n := by
  induction ops using List.reverseRecOn generalizing outs l with
  | nil =>
      obtain ⟨-, rfl⟩ := Prod.mk.inj (Option.some_inj.mp h)
      exact ⟨List.Pairwise.nil, Nat.zero_le n⟩
  | append_singleton ops op ih =>
      obtain ⟨outs', m, x, hm, hx, -⟩ := runOps_concat_eq_some h
      obtain ⟨hord, hlen⟩ := ih hm
      exact LruOp.exec_byRecency hn hord hlen hx

/-- With no key twice, a lookup finds what is in the list. -/
theorem lookup_eq_some_iff_mem (h : (l.map Prod.fst).Nodup) {key : κ} {v : β} :
    l.lookup key = some v ↔ (key, v) ∈ l := by
  rw [List.lookup_eq_some_iff]
  constructor
  · rintro ⟨l₁, l₂, rfl, -⟩
    simp
  · intro hmem
    obtain ⟨l₁, l₂, rfl⟩ := List.append_of_mem hmem
    refine ⟨l₁, l₂, rfl, fun p hp => ?_⟩
    rw [List.map_append, List.map_cons, List.nodup_append] at h
    have hne := h.2.2 p.1 (List.mem_map_of_mem hp) key (List.mem_cons_self ..)
    simpa using Ne.symm hne

end MacSim.Computation
