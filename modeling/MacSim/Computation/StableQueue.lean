import Mathlib.Data.List.Sort

/-!
# A queue kept in order by a stable sort

New elements are put at the end and the queue is sorted again.  Whatever is put in and taken out,
the queue stays sorted by the keys, and the elements of one key stand in the order in which they
arrived: this is `InOrder`, and every operation keeps it.
-/

set_option autoImplicit false

namespace MacSim.Computation

variable {α κ : Type} [LinearOrder κ] {key : α → κ} {r : α → α → Prop} [DecidableRel r]

/-- A sort by keys puts them in order. -/
theorem pairwise_key_insertionSort (hr : ∀ a b, r a b ↔ key a ≤ key b) (l : List α) :
    (l.insertionSort r).Pairwise fun a b => key a ≤ key b := by
  have htotal : Std.Total r := ⟨fun a b => by
    rw [hr, hr]
    exact le_total _ _⟩
  have htrans : IsTrans α r := ⟨fun a b c hab hbc => by
    rw [hr] at hab hbc ⊢
    exact hab.trans hbc⟩
  exact (List.pairwise_insertionSort r l).imp fun hab => (hr _ _).mp hab

/-- A sort by keys leaves the elements of each key in their order. -/
theorem filter_insertionSort (hr : ∀ a b, r a b ↔ key a ≤ key b) (l : List α) (c : κ) :
    (l.insertionSort r).filter (fun a => key a = c) = l.filter fun a => key a = c := by
  have hequal : (l.filter fun a => key a = c).Pairwise r := by
    refine List.pairwise_of_forall_mem_list fun a ha b hb => (hr a b).mpr ?_
    rw [of_decide_eq_true (List.mem_filter.mp ha).2, of_decide_eq_true (List.mem_filter.mp hb).2]
  have hsub : (l.filter fun a => key a = c).Sublist (l.insertionSort r) :=
    List.sublist_insertionSort hequal List.filter_sublist
  have hclass := hsub.filter fun a => key a = c
  simp only [List.filter_filter, Bool.and_self] at hclass
  have hperm := (List.perm_insertionSort r l).filter fun a => key a = c
  exact (hclass.eq_of_length hperm.length_eq.symm).symm

/-- The entries of a queue are sorted by their keys, and the entries of each key stand in the order
of arrival. -/
structure InOrder (key : α → κ) (arrivals entries : List α) : Prop where
  sorted : entries.Pairwise fun a b => key a ≤ key b
  stable : ∀ c, entries.filter (fun a => key a = c) = arrivals.filter fun a => key a = c

namespace InOrder

variable {arrivals entries : List α}

/-- The empty queue is in order. -/
theorem nil (key : α → κ) : InOrder key [] [] := ⟨List.Pairwise.nil, fun _ => rfl⟩

/-- The entries of a queue in order are those that arrived. -/
theorem mem_iff (h : InOrder key arrivals entries) {a : α} : a ∈ entries ↔ a ∈ arrivals := by
  have hmem : ∀ l : List α, a ∈ l ↔ a ∈ l.filter fun b => key b = key a := by simp
  rw [hmem entries, h.stable, ← hmem]

/-- A new element arrives, and the queue is sorted again. -/
theorem push (h : InOrder key arrivals entries) (hr : ∀ a b, r a b ↔ key a ≤ key b) (a : α) :
    InOrder key (arrivals ++ [a]) ((entries ++ [a]).insertionSort r) where
  sorted := pairwise_key_insertionSort hr _
  stable c := by rw [filter_insertionSort hr, List.filter_append, List.filter_append, h.stable]

/-- Some elements are taken out. -/
theorem filter (h : InOrder key arrivals entries) (p : α → Bool) :
    InOrder key (arrivals.filter p) (entries.filter p) where
  sorted := h.sorted.filter p
  stable c := by rw [List.filter_comm, h.stable, List.filter_comm]

/-- The keys are replaced by others that are the same in the queue. -/
theorem congr {key' : α → κ} (h : InOrder key arrivals entries)
    (hkey : ∀ a ∈ entries, key' a = key a) : InOrder key' arrivals entries where
  sorted := h.sorted.imp_of_mem fun ha hb hab => by
    rw [hkey _ ha, hkey _ hb]
    exact hab
  stable c := by
    have hsame : ∀ l : List α, (∀ a ∈ l, key' a = key a) →
        l.filter (fun a => key' a = c) = l.filter fun a => key a = c := by
      intro l hl
      refine List.filter_congr fun a ha => ?_
      rw [hl a ha]
    rw [hsame entries hkey, h.stable, hsame arrivals fun a ha => hkey a (h.mem_iff.mpr ha)]

end InOrder

end MacSim.Computation
