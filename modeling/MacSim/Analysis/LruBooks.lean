import MacSim.Model.LruTable

/-!
# The books of an LRU table

The hash table, the entries, the list of entries in use and the stack of free entries of an
`LruTable` say the same thing in a well-formed table: the hash table leads from a page to the
entry of the list that has this page as its index.  The operations keep tables well-formed, with
one exception, `getVictim`; what an operation does to the values that a table holds follows.
-/

set_option autoImplicit false

namespace MacSim.Analysis

open MacSim.Model

variable {β : Type}

/-- The parts of the table agree. -/
structure WellFormed (t : LruTable β) : Prop where
  nodup : (t.order ++ t.freeEntries).Nodup
  listed : ∀ key node, t.table key = some node ↔ node ∈ t.order ∧ (t.entry node).key = key

namespace WellFormed

variable {t t' : LruTable β} {key : PageKey} {value : β} {node : ℕ}

/-- The order of a well-formed table has no repetition. -/
theorem order_nodup (h : WellFormed t) : t.order.Nodup := (List.nodup_append.mp h.nodup).1

/-- A node in the order is not free. -/
theorem not_free (h : WellFormed t) (hn : node ∈ t.order) : node ∉ t.freeEntries :=
  fun hf => (List.nodup_append.mp h.nodup).2.2 node hn node hf rfl

/-- A new table is well formed. -/
theorem new (n : ℕ) (blank : β) : WellFormed (LruTable.new n blank) where
  nodup := by simpa [LruTable.new] using List.nodup_range
  listed key node := by simp [LruTable.new]

/-! ## Touching an entry -/

/-- A touched node was in the order and is now its first. -/
theorem touch_eq (h : t.touch node = some t') :
    node ∈ t.order ∧ t' = { t with order := node :: t.order.erase node } := by
  unfold LruTable.touch at h
  split at h
  · exact ⟨‹_›, (Option.some.inj h).symm⟩
  · exact nomatch h

/-- The entries are listed or free, as before. -/
theorem touch_perm (h : t.touch node = some t') :
    (t'.order ++ t'.freeEntries).Perm (t.order ++ t.freeEntries) := by
  obtain ⟨hmem, rfl⟩ := touch_eq h
  exact (List.perm_cons_erase hmem).symm.append_right _

/-- A touch keeps the table well formed. -/
theorem touch (hw : WellFormed t) (h : t.touch node = some t') : WellFormed t' := by
  refine ⟨(touch_perm h).nodup_iff.mpr hw.nodup, fun key n => ?_⟩
  obtain ⟨hmem, rfl⟩ := touch_eq h
  have hperm : (node :: t.order.erase node).Perm t.order := (List.perm_cons_erase hmem).symm
  show t.table key = some n ↔ n ∈ node :: t.order.erase node ∧ (t.entry n).key = key
  rw [hperm.mem_iff]
  exact hw.listed key n

/-- A touch changes no answer. -/
theorem find_touch (h : t.touch node = some t') : t'.find = t.find := by
  obtain ⟨-, rfl⟩ := touch_eq h
  rfl

/-- An update is the touch of a node. -/
theorem touch_eq_of_update (h : t.update key = some t') : ∃ node, t.touch node = some t' := by
  obtain ⟨node, -, hn⟩ := Option.bind_eq_some_iff.mp h
  exact ⟨node, hn⟩

/-- A page of the table can be touched. -/
theorem update_isSome (hw : WellFormed t) (h : (t.table key).isSome) :
    (t.update key).isSome := by
  obtain ⟨node, hn⟩ := Option.isSome_iff_exists.mp h
  simp [LruTable.update, LruTable.touch, hn, ((hw.listed key node).mp hn).1]

/-! ## New entries -/

/-- An insertion uses a free entry, or the least recently used one if there is none. -/
theorem insert_cases (h : t.insert key value = some t') :
    t.table key = none ∧ ∃ node,
      (t.freeEntries.getLast? = some node ∧
        t' = { table := Function.update t.table key (some node)
               entry := Function.update t.entry node ⟨key, value⟩
               order := node :: t.order
               freeEntries := t.freeEntries.dropLast }) ∨
      (t.freeEntries = [] ∧ t.order.getLast? = some node ∧
        t' = { table := Function.update (Function.update t.table (t.entry node).key none) key
                 (some node)
               entry := Function.update t.entry node ⟨key, value⟩
               order := node :: t.order.dropLast
               freeEntries := [] }) := by
  unfold LruTable.insert at h
  cases hkey : t.table key with
  | some _ => simp [hkey] at h
  | none =>
      refine ⟨rfl, ?_⟩
      cases hfree : t.freeEntries.getLast? with
      | some node =>
          simp only [hkey, hfree, Option.some.injEq] at h
          exact ⟨node, .inl ⟨rfl, h.symm⟩⟩
      | none =>
          have hnil : t.freeEntries = [] := List.getLast?_eq_none_iff.mp hfree
          simp only [hkey, hfree] at h
          obtain ⟨node, hlast, rfl⟩ := Option.map_eq_some_iff.mp h
          exact ⟨node, .inr ⟨hnil, hlast, by rw [hnil]⟩⟩

/-- The entry that is used next is not in the list, or it is the last of it. -/
theorem dropLast_perm {l : List ℕ} (h : l.getLast? = some node) :
    (node :: l.dropLast).Perm l := by
  have hl : l.dropLast ++ [node] = l := List.dropLast_append_getLast? node h
  exact (List.perm_append_singleton node l.dropLast).symm.trans (by rw [hl])

/-- An insertion moves a node from the free ones into the order. -/
theorem insert_perm (h : t.insert key value = some t') :
    (t'.order ++ t'.freeEntries).Perm (t.order ++ t.freeEntries) := by
  obtain ⟨-, node, ⟨hfree, rfl⟩ | ⟨hnil, hlast, rfl⟩⟩ := insert_cases h
  · exact List.perm_middle.symm.trans ((dropLast_perm hfree).append_left t.order)
  · rw [hnil]
    exact (dropLast_perm hlast).append_right []

/-- An insertion keeps the table well formed. -/
theorem insert (hw : WellFormed t) (h : t.insert key value = some t') : WellFormed t' := by
  refine ⟨(insert_perm h).nodup_iff.mpr hw.nodup, fun key' n => ?_⟩
  obtain ⟨hnone, node, ⟨hfree, rfl⟩ | ⟨hnil, hlast, rfl⟩⟩ := insert_cases h
  · have hmem : node ∈ t.freeEntries := List.mem_of_getLast? hfree
    have hout : node ∉ t.order := fun hin => hw.not_free hin hmem
    simp only [Function.update_apply, List.mem_cons]
    have hold := hw.listed key' n
    have hold' := hw.listed key n
    grind
  · have hperm := dropLast_perm hlast
    have hnd := hperm.nodup_iff.mpr hw.order_nodup
    have hmem : ∀ m, m ∈ t.order ↔ m = node ∨ m ∈ t.order.dropLast := fun m => by
      rw [← hperm.mem_iff, List.mem_cons]
    have hout : node ∉ t.order.dropLast := (List.nodup_cons.mp hnd).1
    simp only [Function.update_apply, List.mem_cons]
    have hold := hw.listed key' n
    have hold' := hw.listed (t.entry node).key node
    have hmem' := hmem n
    have hmem'' := hmem node
    grind

/-- After an insertion the table holds the new value and some of the old ones. -/
theorem find_insert (hw : WellFormed t) (h : t.insert key value = some t') {key' : PageKey}
    {value' : β} (hf : t'.find key' = some value') :
    (key' = key ∧ value' = value) ∨ t.find key' = some value' := by
  obtain ⟨n, hn, hv⟩ := Option.map_eq_some_iff.mp hf
  obtain ⟨hnone, node, ⟨hfree, rfl⟩ | ⟨hnil, hlast, rfl⟩⟩ := insert_cases h
  · have hout : node ∉ t.order := fun hin => hw.not_free hin (List.mem_of_getLast? hfree)
    have hold := hw.listed key' n
    simp only [Function.update_apply] at hn hv
    simp only [LruTable.find, Option.map_eq_some_iff]
    grind
  · have hold := hw.listed key' n
    simp only [Function.update_apply] at hn hv
    simp only [LruTable.find, Option.map_eq_some_iff]
    grind

/-! ## Invalid entries -/

/-- An invalidation does nothing, or frees the node of the key. -/
theorem invalidate_cases {t t' : Tlb} (h : t.invalidate key = some t') :
    (t.table key = none ∧ t' = t) ∨
    ∃ node, t.table key = some node ∧ node ∈ t.order ∧
      t' = { table := Function.update t.table key none
             entry := Function.update t.entry node ⟨PageKey.unset, 2 ^ 64 - 1⟩
             order := t.order.erase node
             freeEntries := t.freeEntries ++ [node] } := by
  unfold Tlb.invalidate at h
  split at h
  · exact .inl ⟨‹_›, (Option.some.inj h).symm⟩
  · rename_i node hnode
    split at h
    · rename_i hc
      exact .inr ⟨node, hnode, hc.2, (Option.some.inj h).symm⟩
    · exact nomatch h

/-- An invalidation moves a node from the order to the free ones. -/
theorem invalidate_perm {t t' : Tlb} (h : t.invalidate key = some t') :
    (t'.order ++ t'.freeEntries).Perm (t.order ++ t.freeEntries) := by
  obtain ⟨-, rfl⟩ | ⟨node, hkey, hmem, rfl⟩ := invalidate_cases h
  · exact List.Perm.refl _
  · refine (List.perm_append_comm_assoc _ _ _).trans ?_
    refine List.Perm.trans ?_ List.perm_append_comm
    refine List.Perm.append_left t.freeEntries ?_
    exact (List.perm_append_singleton node _).trans (List.perm_cons_erase hmem).symm

/-- An invalidation keeps the table well formed. -/
theorem invalidate {t t' : Tlb} (hw : WellFormed t) (h : t.invalidate key = some t') :
    WellFormed t' := by
  refine ⟨(invalidate_perm h).nodup_iff.mpr hw.nodup, fun key' n => ?_⟩
  obtain ⟨-, rfl⟩ | ⟨node, hkey, hmem, rfl⟩ := invalidate_cases h
  · exact hw.listed key' n
  · have hold := hw.listed key' n
    have hold' := hw.listed key node
    simp only [Function.update_apply, hw.order_nodup.mem_erase_iff]
    grind

/-- An invalidated page is gone, and what is left was there. -/
theorem find_invalidate {t t' : Tlb} (hw : WellFormed t) (h : t.invalidate key = some t')
    {key' : PageKey} {frame : ℕ} (hf : t'.find key' = some frame) :
    key' ≠ key ∧ t.find key' = some frame := by
  obtain ⟨n, hn, hv⟩ := Option.map_eq_some_iff.mp hf
  obtain ⟨hnone, rfl⟩ | ⟨node, hkey, hmem, rfl⟩ := invalidate_cases h
  · refine ⟨fun he => ?_, hf⟩
    rw [he, hnone] at hn
    exact nomatch hn
  · have hold := hw.listed key' n
    have hold' := hw.listed key node
    simp only [Function.update_apply] at hn hv
    simp only [LruTable.find, Option.map_eq_some_iff]
    grind

end WellFormed

end MacSim.Analysis
