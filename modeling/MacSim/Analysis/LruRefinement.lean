import MacSim.Analysis.LruBooks
import MacSim.Model.LruCalls

/-!
# An LRU table as a bounded store

The entries of the linked list of an `LruTable`, from its head to its tail, are a store of
`Computation.Recency`.  A TLB simulates the store call by call.  The replacement unit does so
up to `getVictim`, which resets the entry before it erases the index of the entry, so that the
index stays in the hash table unless it is the one that a reset entry has.
-/

set_option autoImplicit false

namespace MacSim.Analysis

open MacSim.Model MacSim.Computation

variable {β : Type}

/-- What the list of a table holds. -/
def contents (t : LruTable β) : List (PageKey × β) :=
  t.order.map fun node => ((t.entry node).key, (t.entry node).value)

/-- The table has `n` entries, each of them listed or free, and its list holds `l`. -/
structure Represents (n : ℕ) (t : LruTable β) (l : List (PageKey × β)) : Prop where
  wf : WellFormed t
  slots : (t.order ++ t.freeEntries).Perm (List.range n)
  contents : contents t = l

variable {n : ℕ} {t t' : LruTable β} {l : List (PageKey × β)} {key : PageKey} {value : β}
  {node : ℕ}

namespace WellFormed

/-- The keys of a well-formed table are pairwise different. -/
theorem keys_nodup (h : WellFormed t) : ((contents t).map Prod.fst).Nodup := by
  rw [contents, List.map_map]
  refine List.Nodup.map_on (fun a ha b hb heq => ?_) h.order_nodup
  have hb' := (h.listed (t.entry b).key b).mpr ⟨hb, rfl⟩
  have ha' := (h.listed (t.entry b).key a).mpr ⟨ha, heq⟩
  exact Option.some_inj.mp (ha'.symm.trans hb')

/-- The hash table finds what the list holds. -/
theorem lookup_contents (h : WellFormed t) (key : PageKey) :
    (contents t).lookup key = t.find key := by
  refine Option.ext fun v => ?_
  rw [lookup_eq_some_iff_mem h.keys_nodup, LruTable.find, Option.map_eq_some_iff]
  simp only [contents, List.mem_map, Prod.mk.injEq, h.listed, and_assoc]

/-- Without an entry, the list is the one without its key. -/
theorem contents_erase (h : WellFormed t) (hkey : t.table key = some node) :
    ((t.order.erase node).map fun m => ((t.entry m).key, (t.entry m).value)) =
      (contents t).filter (·.1 ≠ key) := by
  rw [h.order_nodup.erase_eq_filter, contents, List.filter_map]
  refine congrArg _ (List.filter_congr fun m hm => ?_)
  have hlisted : m = node ↔ (t.entry m).key = key := by
    have hm' := h.listed key m
    rw [hkey, Option.some_inj, and_iff_right hm] at hm'
    rw [← hm', eq_comm]
  rw [Bool.eq_iff_iff, bne_iff_ne, Function.comp_apply, decide_eq_true_eq]
  exact not_congr hlisted

end WellFormed

namespace Represents

/-- A new table stands for the empty list. -/
theorem new (n : ℕ) (blank : β) : Represents n (LruTable.new n blank) [] :=
  ⟨WellFormed.new n blank, List.Perm.refl _, rfl⟩

/-- The entries and the free nodes make up the table. -/
theorem length_add (h : Represents n t l) : l.length + t.freeEntries.length = n := by
  have hlen := h.slots.length_eq
  rw [List.length_append, List.length_range] at hlen
  rw [← h.contents, Analysis.contents, List.length_map, hlen]

/-- The table has a key exactly when the list has it. -/
theorem table_isSome (h : Represents n t l) (key : PageKey) :
    (t.table key).isSome = true ↔ key ∈ l.map Prod.fst := by
  rw [← h.contents, Analysis.contents, Option.isSome_iff_exists]
  simp only [h.wf.listed, List.map_map, List.mem_map, Function.comp_apply]

/-- The table answers as the list does. -/
theorem lookup (h : Represents n t l) (key : PageKey) : l.lookup key = t.find key := by
  rw [← h.contents, h.wf.lookup_contents]

/-- An entry of the table comes to the front of its list. -/
theorem touch (h : Represents n t l) (hv : l.lookup key = some value) :
    ∃ node t', t.table key = some node ∧ (t.entry node).value = value ∧
      t.touch node = some t' ∧ Represents n t' ((key, value) :: l.filter (·.1 ≠ key)) := by
  rw [h.lookup, LruTable.find, Option.map_eq_some_iff] at hv
  obtain ⟨node, hnode, hvalue⟩ := hv
  obtain ⟨hmem, hkey⟩ := (h.wf.listed key node).mp hnode
  have htouch : t.touch node = some { t with order := node :: t.order.erase node } :=
    if_pos hmem
  refine ⟨node, _, hnode, hvalue, htouch, h.wf.touch htouch,
    (WellFormed.touch_perm htouch).trans h.slots, ?_⟩
  rw [← h.contents, ← h.wf.contents_erase hnode, ← hvalue, ← hkey]
  rfl

/-- The list without an entry that is written, or with it in front. -/
theorem map_update_of_notMem {order : List ℕ} {entry : ℕ → LruEntry β} {e : LruEntry β}
    (h : node ∉ order) :
    (order.map fun m => ((Function.update entry node e m).key,
      (Function.update entry node e m).value)) =
      order.map fun m => ((entry m).key, (entry m).value) := by
  refine List.map_congr_left fun m hm => ?_
  rw [Function.update_of_ne (ne_of_mem_of_not_mem hm h)]

/-- An insertion puts the key first and drops the last one when the table is full. -/
theorem insert (hn : 1 ≤ n) (h : Represents n t l) (hv : (l.lookup key).isSome = false)
    (value : β) :
    ∃ t', t.insert key value = some t' ∧
      Represents n t' ((key, value) :: if l.length < n then l else l.dropLast) := by
  have hnone : t.table key = none := by
    rw [h.lookup, LruTable.find, Option.isSome_map] at hv
    simpa using hv
  have hlen := h.length_add
  cases hfree : t.freeEntries.getLast? with
  | some node =>
      have hinsert := (show t.insert key value = some _ by
        simp only [LruTable.insert, hnone, hfree]; rfl)
      have hmem : node ∈ t.freeEntries := List.mem_of_getLast? hfree
      have hout : node ∉ t.order := fun hin => h.wf.not_free hin hmem
      have hpos := List.length_pos_of_mem hmem
      refine ⟨_, hinsert, h.wf.insert hinsert, (WellFormed.insert_perm hinsert).trans h.slots, ?_⟩
      rw [if_pos (by omega), ← h.contents, Analysis.contents, Analysis.contents, List.map_cons,
        map_update_of_notMem hout]
      simp
  | none =>
      have hnil : t.freeEntries = [] := List.getLast?_eq_none_iff.mp hfree
      have hfull : l.length = n := by simpa [hnil] using hlen
      cases hlast : t.order.getLast? with
      | none =>
          have hempty : t.order = [] := List.getLast?_eq_none_iff.mp hlast
          rw [← h.contents, Analysis.contents, hempty, List.map_nil, List.length_nil] at hfull
          omega
      | some node =>
          have hinsert := (show t.insert key value = some _ by
            simp only [LruTable.insert, hnone, hfree, hlast]; rfl)
          have hnd := (WellFormed.dropLast_perm hlast).nodup_iff.mpr h.wf.order_nodup
          refine ⟨_, hinsert, h.wf.insert hinsert,
            (WellFormed.insert_perm hinsert).trans h.slots, ?_⟩
          rw [if_neg (by omega), ← h.contents, Analysis.contents, Analysis.contents,
            List.map_cons, map_update_of_notMem (List.nodup_cons.mp hnd).1, List.map_dropLast]
          simp

/-- An invalidation takes the key out of the list. -/
theorem invalidate {t : Tlb} {l : List (PageKey × ℕ)} (h : Represents n t l) (key : PageKey) :
    ∃ t', t.invalidate key = some t' ∧ Represents n t' (l.filter (·.1 ≠ key)) := by
  cases hkey : t.table key with
  | none =>
      have habsent : key ∉ l.map Prod.fst := by
        rw [← h.table_isSome, hkey]
        exact Bool.false_ne_true
      have hall : ∀ b ∈ l, decide (b.1 ≠ key) = true := fun b hb =>
        decide_eq_true fun heq => habsent (heq ▸ List.mem_map_of_mem hb)
      refine ⟨t, by simp only [Tlb.invalidate, hkey], ?_⟩
      rw [List.filter_eq_self.mpr hall]
      exact h
  | some node =>
      obtain ⟨hmem, hentry⟩ := (h.wf.listed key node).mp hkey
      have hdrop := (show t.invalidate key = some _ by
        simp only [Tlb.invalidate, hkey]
        exact if_pos ⟨congrArg PageKey.page hentry, hmem⟩)
      refine ⟨_, hdrop, h.wf.invalidate hdrop, (WellFormed.invalidate_perm hdrop).trans h.slots, ?_⟩
      have hout : node ∉ t.order.erase node := h.wf.order_nodup.not_mem_erase
      rw [← h.contents, ← h.wf.contents_erase hkey, Analysis.contents, map_update_of_notMem hout]

end Represents

/-! ## The TLB -/

/-- A TLB for pages of `2 ^ b` bytes that stands for a store of `n` pages. -/
structure StandsFor (n b : ℕ) (u : TlbUnit) (l : List (PageKey × ℕ)) : Prop where
  offset : u.offsetBits = b
  tlb : Represents n u.tlb l

namespace StandsFor

variable {b : ℕ} {u : TlbUnit} {l l' : List (PageKey × ℕ)} {x : LruOut PageKey ℕ}

/-- A new unit stands for the empty store. -/
theorem new (n b : ℕ) : StandsFor n b (TlbUnit.new n (2 ^ b)) [] :=
  ⟨log2Int_two_pow b, Represents.new n _⟩

/-- The page of an address is the page that the store knows. -/
theorem page (h : StandsFor n b u l) (addr : Addr) :
    u.getPageNumber addr = pageOf (2 ^ b) addr := by
  refine BitVec.eq_of_toNat_eq ?_
  have hlt : addr.toNat / 2 ^ b < 2 ^ 64 := (Nat.div_le_self _ _).trans_lt addr.isLt
  rw [TlbUnit.getPageNumber, h.offset, BitVec.toNat_ushiftRight, Nat.shiftRight_eq_div_pow,
    pageOf, BitVec.toNat_ofNat, Nat.mod_eq_of_lt hlt]

/-- One call does what the request asks of the store. -/
theorem exec (hn : 1 ≤ n) (h : StandsFor n b u l) {call : TlbCall}
    (hx : (call.request (2 ^ b)).exec n l = some (x, l')) :
    ∃ u', call.exec u = some (x, u') ∧ StandsFor n b u' l' := by
  cases call with
  | lookup addr pid =>
      obtain ⟨rfl, rfl⟩ := Prod.mk.inj (Option.some_inj.mp hx)
      refine ⟨u, ?_, h⟩
      simp only [TlbCall.exec, Tlb.lookup, h.page, h.tlb.lookup, LruTable.find, Option.isSome_map]
  | update addr pid =>
      obtain ⟨frame, hv, heq⟩ := Option.map_eq_some_iff.mp hx
      obtain ⟨rfl, rfl⟩ := Prod.mk.inj heq
      obtain ⟨node, t', hnode, -, htouch, ht'⟩ := h.tlb.touch hv
      refine ⟨{ u with tlb := t' }, ?_, h.offset, ht'⟩
      simp only [TlbCall.exec, h.page, LruTable.update, hnode, Option.bind_some, htouch,
        Option.map_some]
  | translate addr pid =>
      obtain ⟨frame, hv, heq⟩ := Option.map_eq_some_iff.mp hx
      obtain ⟨rfl, rfl⟩ := Prod.mk.inj heq
      obtain ⟨node, t', hnode, hframe, htouch, ht'⟩ := h.tlb.touch hv
      refine ⟨{ u with tlb := t' }, ?_, h.offset, ht'⟩
      simp [TlbCall.exec, h.page, Tlb.translate, hnode, htouch, hframe]
  | insert addr frame pid =>
      simp only [TlbCall.request, LruOp.exec] at hx
      split at hx
      · cases hx
      · rename_i hnone
        obtain ⟨rfl, rfl⟩ := Prod.mk.inj (Option.some_inj.mp hx)
        obtain ⟨t', hinsert, ht'⟩ := h.tlb.insert hn (Bool.eq_false_iff.mpr hnone) frame
        refine ⟨{ u with tlb := t' }, ?_, h.offset, ht'⟩
        simp only [TlbCall.exec, h.page, hinsert, Option.map_some]
  | invalidate page pid =>
      obtain ⟨rfl, rfl⟩ := Prod.mk.inj (Option.some_inj.mp hx)
      obtain ⟨t', hdrop, ht'⟩ := h.tlb.invalidate ⟨page, pid⟩
      refine ⟨{ u with tlb := t' }, ?_, h.offset, ht'⟩
      simp only [TlbCall.exec, hdrop, Option.map_some]

end StandsFor

/-- For every number of entries, every page size that is a power of two and every sequence of
calls whose preconditions hold for the store, no call of the TLB fails, every call returns what
the store does, and the hash table, the linked list and the free entries say what the store
holds: its keys, in the order of their last use. -/
theorem tlb_refines_store (n b : ℕ) (hn : 1 ≤ n) (calls : List TlbCall)
    (outs : List (LruOut PageKey ℕ)) (l : List (PageKey × ℕ))
    (hlegal : runOps (fun l op => LruOp.exec n l op) []
      (calls.map (TlbCall.request (2 ^ b))) = some (outs, l)) :
    ∃ u, runOps (fun u (c : TlbCall) => c.exec u) (TlbUnit.new n (2 ^ b)) calls = some (outs, u) ∧
      contents u.tlb = l ∧ l.length ≤ n ∧
      ByRecency (calls.map (TlbCall.request (2 ^ b))) l ∧
      (∀ addr pid, u.tlb.lookup ⟨u.getPageNumber addr, pid⟩ = true ↔
        (⟨pageOf (2 ^ b) addr, pid⟩ : PageKey) ∈ l.map Prod.fst) ∧
      (∀ key node, u.tlb.table key = some node ↔
        node ∈ u.tlb.order ∧ (u.tlb.entry node).key = key) ∧
      (u.tlb.order ++ u.tlb.freeEntries).Perm (List.range n) := by
  obtain ⟨hord, hlen⟩ := runOps_byRecency hn hlegal
  have hrun : ∃ u, runOps (fun u (c : TlbCall) => c.exec u) (TlbUnit.new n (2 ^ b)) calls =
      some (outs, u) ∧ StandsFor n b u l := by
    clear hord hlen
    induction calls using List.reverseRecOn generalizing outs l with
    | nil =>
        obtain ⟨rfl, rfl⟩ := Prod.mk.inj (Option.some_inj.mp hlegal)
        exact ⟨_, rfl, StandsFor.new n b⟩
    | append_singleton calls call ih =>
        rw [List.map_append, List.map_singleton] at hlegal
        obtain ⟨outs', m, x, hm, hx, rfl⟩ := runOps_concat_eq_some hlegal
        obtain ⟨u, hu, hstands⟩ := ih outs' m hm
        obtain ⟨u', hu', hstands'⟩ := hstands.exec hn hx
        exact ⟨u', runOps_concat hu hu', hstands'⟩
  obtain ⟨u, hu, hstands⟩ := hrun
  refine ⟨u, hu, hstands.tlb.contents, hlen, hord, fun addr pid => ?_, hstands.tlb.wf.listed,
    hstands.tlb.slots⟩
  rw [hstands.page, ← hstands.tlb.table_isSome]
  rfl

/-- A TLB of two entries: the page that was translated stays, the other one is replaced. -/
def twoEntryCalls : List TlbCall :=
  [.insert 0x1000 5 1, .insert 0x2000 6 1, .translate 0x1abc 1, .insert 0x3000 7 1,
    .lookup 0x2000 1, .lookup 0x1000 1, .invalidate 3 1, .lookup 0x3000 1]

/-- A unit of two entries answers like the store on a run of every kind of call. -/
theorem tlb_refines_store_two_entries :
    ∃ u, runOps (fun u (c : TlbCall) => c.exec u) (TlbUnit.new 2 (2 ^ 12)) twoEntryCalls =
        some ([.done, .done, .value 5, .done, .found false, .found true, .done, .found false],
          u) ∧
      contents u.tlb = [(⟨1, 1⟩, 5)] := by
  obtain ⟨u, hu, hcontents, -⟩ := tlb_refines_store 2 12 (by decide) twoEntryCalls
    [.done, .done, .value 5, .done, .found false, .found true, .done, .found false]
    [(⟨1, 1⟩, 5)] (by decide)
  exact ⟨u, hu, hcontents⟩

/-! ## The replacement unit -/

section Unit

variable {t t' : ReplacementUnit} {l l' : List (PageKey × Unit)}

/-- The page at the end of the list is returned, and what the hash table loses is the index of a
reset entry. -/
theorem getVictim_eq (h : Represents n t l) {x : PageKey × Unit} (hlast : l.getLast? = some x) :
    ∃ node, t.order.getLast? = some node ∧ (t.entry node).key = x.1 ∧
      ReplacementUnit.getVictim t = some (x.1,
        { table := Function.update t.table PageKey.unset none
          entry := Function.update t.entry node ⟨PageKey.unset, ()⟩
          order := t.order.dropLast
          freeEntries := t.freeEntries ++ [node] }) := by
  rw [← h.contents, contents, List.getLast?_map, Option.map_eq_some_iff] at hlast
  obtain ⟨node, hnode, rfl⟩ := hlast
  refine ⟨node, hnode, rfl, ?_⟩
  rw [ReplacementUnit.getVictim, hnode]
  rfl

/-- A victim with the index of a reset entry leaves the table as it is to be. -/
theorem Represents.getVictim (h : Represents n t l) {u : Unit}
    (hlast : l.getLast? = some (PageKey.unset, u)) :
    ∃ t', ReplacementUnit.getVictim t = some (PageKey.unset, t') ∧
      Represents n t' l.dropLast := by
  obtain ⟨node, hnode, hkey, hvictim⟩ := getVictim_eq h hlast
  have hperm := WellFormed.dropLast_perm hnode
  have hnd := hperm.nodup_iff.mpr h.wf.order_nodup
  have hout : node ∉ t.order.dropLast := (List.nodup_cons.mp hnd).1
  have hslots : (t.order.dropLast ++ (t.freeEntries ++ [node])).Perm
      (t.order ++ t.freeEntries) := by
    rw [← List.append_assoc]
    refine (List.perm_append_singleton node _).trans ?_
    exact hperm.append_right t.freeEntries
  refine ⟨_, hvictim, ⟨hslots.nodup_iff.mpr h.wf.nodup, fun key m => ?_⟩,
    hslots.trans h.slots, ?_⟩
  · have hmem : ∀ m, m ∈ t.order ↔ m = node ∨ m ∈ t.order.dropLast := fun m => by
      rw [← hperm.mem_iff, List.mem_cons]
    have hold := h.wf.listed key m
    have hold' := h.wf.listed key node
    have hmem' := hmem m
    have hmem'' := hmem node
    simp only [Function.update_apply]
    grind
  · rw [← h.contents, Analysis.contents, Analysis.contents, map_update_of_notMem hout,
      List.map_dropLast]

/-- One call, with a victim as above. -/
theorem Represents.exec_unit (hn : 1 ≤ n) (h : Represents n t l) {call : UnitCall}
    {x : LruOut PageKey Unit} (hx : call.request.exec n l = some (x, l'))
    (hvictim : call = .getVictim → l.getLast?.map Prod.fst = some PageKey.unset) :
    ∃ t', call.exec t = some (x, t') ∧ Represents n t' l' := by
  cases call with
  | insert page pid =>
      simp only [UnitCall.request, LruOp.exec] at hx
      split at hx
      · cases hx
      · rename_i hnone
        obtain ⟨rfl, rfl⟩ := Prod.mk.inj (Option.some_inj.mp hx)
        obtain ⟨t', hinsert, ht'⟩ := h.insert hn (Bool.eq_false_iff.mpr hnone) ()
        exact ⟨t', by simp only [UnitCall.exec, hinsert, Option.map_some], ht'⟩
  | update page pid =>
      obtain ⟨v, hv, heq⟩ := Option.map_eq_some_iff.mp hx
      obtain ⟨rfl, rfl⟩ := Prod.mk.inj heq
      obtain ⟨node, t', hnode, -, htouch, ht'⟩ := h.touch hv
      refine ⟨t', ?_, ht'⟩
      simp only [UnitCall.exec, LruTable.update, hnode, Option.bind_some, htouch,
        Option.map_some]
  | getVictim =>
      obtain ⟨⟨key, v⟩, hlast, heq⟩ := Option.map_eq_some_iff.mp hx
      obtain ⟨rfl, rfl⟩ := Prod.mk.inj heq
      have hkey := hvictim rfl
      rw [hlast, Option.map_some, Option.some_inj] at hkey
      dsimp only at hkey
      subst hkey
      obtain ⟨t', hv, ht'⟩ := h.getVictim hlast
      exact ⟨t', by simp only [UnitCall.exec, hv, Option.map_some], ht'⟩

/-- What a replacement unit with `n` entries is to be after the calls. -/
structure ListsPages (n : ℕ) (calls : List UnitCall) (l : List (PageKey × Unit))
    (t : ReplacementUnit) : Prop where
  keys : ∀ key, (t.table key).isSome = true ↔ key ∈ l.map Prod.fst
  listed : contents t = l
  recency : ByRecency (calls.map UnitCall.request) l
  free : t.freeEntries.length + t.order.length = n

/-- The unit with `n` entries returns what the list of pages does, all along the calls. -/
def ImplementsList (n : ℕ) (calls : List UnitCall) : Prop :=
  ∀ pre outs l, pre <+: calls →
    runOps (fun l op => LruOp.exec n l op) [] (pre.map UnitCall.request) = some (outs, l) →
    ∃ t, runOps (fun t (c : UnitCall) => c.exec t) (LruTable.new n ()) pre = some (outs, t) ∧
      ListsPages n pre l t

/-- Every victim of the calls is the page that a reset entry has for its index. -/
def VictimsReset (n : ℕ) (calls : List UnitCall) : Prop :=
  ∀ pre outs l, (pre ++ [.getVictim]) <+: calls →
    runOps (fun l op => LruOp.exec n l op) [] (pre.map UnitCall.request) = some (outs, l) →
    l.getLast?.map Prod.fst = some PageKey.unset

/-- A unit whose victims are reset stands for the list. -/
theorem VictimsReset.represents (hn : 1 ≤ n) {calls : List UnitCall}
    {outs : List (LruOut PageKey Unit)} (h : VictimsReset n calls)
    (hrun : runOps (fun l op => LruOp.exec n l op) [] (calls.map UnitCall.request) =
      some (outs, l)) :
    ∃ t, runOps (fun t (c : UnitCall) => c.exec t) (LruTable.new n ()) calls = some (outs, t) ∧
      Represents n t l := by
  induction calls using List.reverseRecOn generalizing outs l with
  | nil =>
      obtain ⟨rfl, rfl⟩ := Prod.mk.inj (Option.some_inj.mp hrun)
      exact ⟨_, rfl, Represents.new n ()⟩
  | append_singleton calls call ih =>
      rw [List.map_append, List.map_singleton] at hrun
      obtain ⟨outs', m, x, hm, hx, rfl⟩ := runOps_concat_eq_some hrun
      obtain ⟨t, ht, hrep⟩ := ih
        (fun pre outs l hpre => h pre outs l (hpre.trans (List.prefix_append calls [call]))) hm
      obtain ⟨t', ht', hrep'⟩ := hrep.exec_unit hn hx fun hcall =>
        h calls outs' m (by rw [hcall]) hm
      exact ⟨t', runOps_concat ht ht', hrep'⟩

/-- A unit that stands for a list lists the pages. -/
theorem Represents.listsPages (hn : 1 ≤ n) (h : Represents n t l) {calls : List UnitCall}
    {outs : List (LruOut PageKey Unit)}
    (hrun : runOps (fun l op => LruOp.exec n l op) [] (calls.map UnitCall.request) =
      some (outs, l)) : ListsPages n calls l t := by
  have hlen := h.slots.length_eq
  rw [List.length_append, List.length_range, Nat.add_comm] at hlen
  exact ⟨h.table_isSome, h.contents, (runOps_byRecency hn hrun).1, hlen⟩

/-- A victim with another index stays in the hash table after it has left the list. -/
theorem Represents.victim_reset (h : Represents n t l) {x : LruOut PageKey Unit}
    (hx : LruOp.exec n l .victim = some (x, l')) {y : LruOut PageKey Unit}
    (hy : UnitCall.exec t .getVictim = some (y, t'))
    (hkeys : ∀ key, (t'.table key).isSome = true ↔ key ∈ l'.map Prod.fst) :
    l.getLast?.map Prod.fst = some PageKey.unset := by
  obtain ⟨last, hlast, heq⟩ := Option.map_eq_some_iff.mp hx
  obtain ⟨-, rfl⟩ := Prod.mk.inj heq
  obtain ⟨node, -, -, hvictim⟩ := getVictim_eq h hlast
  simp only [UnitCall.exec, hvictim, Option.map_some, Option.some_inj, Prod.mk.injEq] at hy
  obtain ⟨-, rfl⟩ := hy
  rw [hlast, Option.map_some, Option.some_inj]
  by_contra hne
  have hsplit : l.dropLast ++ [last] = l := List.dropLast_append_getLast? last hlast
  have hmem : last.1 ∈ l.map Prod.fst := by
    rw [← hsplit, List.map_append]
    exact List.mem_append_right _ (List.mem_singleton_self _)
  have hstays : last.1 ∈ l.dropLast.map Prod.fst := by
    rw [← hkeys]
    dsimp only
    rw [Function.update_of_ne hne, h.table_isSome]
    exact hmem
  have hnd : (l.map Prod.fst).Nodup := h.contents ▸ h.wf.keys_nodup
  rw [← hsplit, List.map_append, List.nodup_append] at hnd
  exact hnd.2.2 last.1 hstays last.1 (List.mem_singleton_self _) rfl

/-- The replacement unit implements the list of pages exactly in those runs where every victim
is the page number `-1` of process `-1`, the index that a reset entry has. -/
theorem replacement_unit_implements_iff (n : ℕ) (hn : 1 ≤ n) (calls : List UnitCall)
    (hlegal : (runOps (fun l op => LruOp.exec n l op) []
      (calls.map UnitCall.request)).isSome = true) :
    ImplementsList n calls ↔ VictimsReset n calls := by
  constructor
  · intro h
    -- the induction is on the calls up to the victim
    have hall (pre : List UnitCall) (hpre : pre <+: calls) : VictimsReset n pre := by
      induction pre using List.reverseRecOn with
      | nil =>
          intro pre outs l hpre
          exact absurd (List.prefix_nil.mp hpre) (List.append_ne_nil_of_right_ne_nil _ (by simp))
      | append_singleton pre call ih =>
          have hreset := ih ((List.prefix_append pre [call]).trans hpre)
          intro pre' outs l hpre' hrun
          rcases List.prefix_concat_iff.mp hpre' with heq | hshort
          · obtain ⟨rfl, hcall⟩ := List.append_inj' heq rfl
            obtain rfl : UnitCall.getVictim = call := by simpa using hcall
            obtain ⟨t, ht, hrep⟩ := hreset.represents hn hrun
            obtain ⟨rest, hrest⟩ := hpre
            rw [← hrest, List.map_append] at hlegal
            obtain ⟨⟨outs', l'⟩, hnext⟩ :=
              Option.isSome_iff_exists.mp (runOps_isSome_of_append hlegal)
            obtain ⟨t', ht', hlists⟩ := h _ outs' l' ⟨rest, hrest⟩ hnext
            rw [List.map_append, List.map_singleton] at hnext
            obtain ⟨_, m, x, hm, hx, -⟩ := runOps_concat_eq_some hnext
            obtain ⟨_, s, y, hs, hy, -⟩ := runOps_concat_eq_some ht'
            obtain rfl := (Prod.mk.inj (Option.some_inj.mp (hm.symm.trans hrun))).2
            obtain rfl := (Prod.mk.inj (Option.some_inj.mp (hs.symm.trans ht))).2
            exact hrep.victim_reset hx hy hlists.keys
          · exact hreset pre' outs l hshort hrun
    exact hall calls (List.prefix_refl calls)
  · intro h pre outs l hpre hrun
    have hreset : VictimsReset n pre := fun pre' outs' l' hpre' => h pre' outs' l' (hpre'.trans hpre)
    obtain ⟨t, ht, hrep⟩ := hreset.represents hn hrun
    exact ⟨t, ht, hrep.listsPages hn hrun⟩

/-- A unit of two entries, with no victim. -/
theorem replacement_unit_implements_two_entries :
    ImplementsList 2 [.insert 5 0, .insert 6 0, .update 5 0, .insert 7 0] :=
  (replacement_unit_implements_iff 2 (by decide) _ (by decide)).mpr
    fun pre outs l hpre _ => by
      have hmem : UnitCall.getVictim ∈ [.insert 5 0, .insert 6 0, .update 5 0, .insert 7 0] :=
        hpre.subset (List.mem_append_right pre (List.mem_singleton_self _))
      exact absurd hmem (by decide)

/-- The page `5` cannot be inserted again after it was the victim: the assertion fails. -/
theorem replacement_unit_reinsert_fails :
    (runOps (fun l op => LruOp.exec 1 l op) []
      ([.insert 5 0, .getVictim, .insert 5 0].map UnitCall.request)).isSome = true ∧
    runOps (fun t (c : UnitCall) => c.exec t) (LruTable.new 1 ())
      [.insert 5 0, .getVictim, .insert 5 0] = none ∧
    ¬ ImplementsList 1 [.insert 5 0, .getVictim, .insert 5 0] := by
  have hfails : runOps (fun t (c : UnitCall) => c.exec t) (LruTable.new 1 ())
      [.insert 5 0, .getVictim, .insert 5 0] = none := rfl
  refine ⟨by decide, hfails, fun h => ?_⟩
  obtain ⟨t, ht, -⟩ := h _ [.done, .victim ⟨5, 0⟩, .done] [(⟨5, 0⟩, ())] (List.prefix_refl _)
    (by decide)
  exact absurd (hfails.symm.trans ht) (by simp)

end Unit

end MacSim.Analysis
