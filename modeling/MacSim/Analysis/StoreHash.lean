import MacSim.Analysis.UopBooks

/-!
# The store hash

What the store hash of a thread holds in every state of a run: at each address, the last
store of the thread that starts there, unless it has been deleted.  An older store with the
same start is gone for good, and a store is found only from the quadword it starts in.

`add_store_deps` is exact, then, where these two limits and the `unsigned int` of its walk do
not show.
-/

set_option autoImplicit false

namespace MacSim.Analysis

open MacSim.Model MacSim.Computation

/-! ## Keys -/

/-- The place of a byte is a place in the quadword. -/
theorem firstByte_lt (va : Addr) : firstByte va < bytesInQuadword := by
  unfold firstByte bytesInQuadword
  rw [BitVec.toNat_and]
  exact lt_of_le_of_lt Nat.and_le_right (by decide)

/-- The place of a byte is its address modulo eight. -/
theorem firstByte_eq_mod (va : Addr) : firstByte va = va.toNat % 8 := by
  unfold firstByte
  rw [BitVec.toNat_and]
  exact Nat.and_two_pow_sub_one_eq_mod va.toNat 3

/-- Two addresses have the same key exactly when they lie in the same quadword. -/
theorem memMapKey_eq_iff (a b : Addr) :
    memMapKey a false = memMapKey b false ↔ a >>> 3 = b >>> 3 := by
  unfold memMapKey
  constructor
  · intro h
    simp only [Bool.false_eq_true, if_false, BitVec.ofNat_eq_ofNat, BitVec.or_zero] at h
    have hn := congrArg BitVec.toNat h
    simp only [BitVec.toNat_shiftLeft, BitVec.toNat_ushiftRight, Nat.shiftRight_eq_div_pow,
      Nat.shiftLeft_eq] at hn
    apply BitVec.eq_of_toNat_eq
    simp only [BitVec.toNat_ushiftRight, Nat.shiftRight_eq_div_pow]
    have ha := a.isLt
    have hb := b.isLt
    omega
  · intro h
    rw [h]

/-- The quadword and the first byte are the address. -/
theorem addr_eq_of_parts {a b : Addr} (hq : a >>> 3 = b >>> 3) (hb : firstByte a = firstByte b) :
    a = b := by
  have hn := congrArg BitVec.toNat hq
  simp only [BitVec.toNat_ushiftRight, Nat.shiftRight_eq_div_pow] at hn
  rw [firstByte_eq_mod, firstByte_eq_mod] at hb
  apply BitVec.eq_of_toNat_eq
  omega

/-! ## Entries -/

/-- An entry of the hash is not empty, and its mask tells which of its slots are in use. -/
structure EntryOk (e : MemMapEntry) : Prop where
  pending : e.storeMask ≠ 0
  bits : ∀ b < bytesInQuadword, e.storeMask.getLsbD b = (e.uop b).isSome

/-- The mask of a byte has its own bit only. -/
theorem getLsbD_bit {b i : ℕ} (hi : i < 8) : (1#8 <<< b).getLsbD i = decide (i = b) := by
  simp only [BitVec.getLsbD_shiftLeft, BitVec.getLsbD_one, hi, decide_true, Bool.true_and]
  by_cases hib : i = b
  · simp [hib]
  · by_cases hlt : i < b
    · simp [hlt, hib]
    · have : ¬ i - b = 0 := by omega
      simp [this, hib]

/-- Recording a store in an entry. -/
theorem EntryOk.set {e : MemMapEntry} {b : ℕ} (p : UopPtr)
    (h : ∀ i < bytesInQuadword, e.storeMask.getLsbD i = (e.uop i).isSome)
    (hb : b < bytesInQuadword) :
    EntryOk ⟨Function.update e.uop b (some p), e.storeMask ||| (1#8 <<< b)⟩ := by
  have hbits : ∀ i < bytesInQuadword, (e.storeMask ||| (1#8 <<< b)).getLsbD i =
      (Function.update e.uop b (some p) i).isSome := by
    intro i hi
    rw [BitVec.getLsbD_or, getLsbD_bit hi, h i hi]
    by_cases hib : i = b
    · simp [hib]
    · simp [hib]
  refine ⟨?_, hbits⟩
  intro hzero
  have hbit := hbits b hb
  simp only at hzero
  rw [hzero] at hbit
  simp at hbit

/-- Clearing a slot of an entry. -/
theorem EntryOk.clear {e : MemMapEntry} {b : ℕ} (h : EntryOk e)
    (hmask : e.storeMask &&& ~~~(1#8 <<< b) ≠ 0) :
    EntryOk ⟨Function.update e.uop b none, e.storeMask &&& ~~~(1#8 <<< b)⟩ := by
  refine ⟨hmask, ?_⟩
  intro i hi
  rw [BitVec.getLsbD_and, BitVec.getLsbD_not, getLsbD_bit hi, h.bits i hi]
  by_cases hib : i = b
  · simp [hib]
  · have : i < 8 := hi
    simp [hib, this]

/-- With its last slot cleared an entry has no slot in use. -/
theorem EntryOk.alone {e : MemMapEntry} {b : ℕ} (h : EntryOk e)
    (hmask : e.storeMask &&& ~~~(1#8 <<< b) = 0) {i : ℕ} (hi : i < bytesInQuadword)
    (hib : i ≠ b) : e.uop i = none := by
  have hbit := congrArg (fun m => m.getLsbD i) hmask
  have hi' : i < 8 := hi
  simp only [BitVec.getLsbD_and, BitVec.getLsbD_not, getLsbD_bit hi', h.bits i hi] at hbit
  simpa [hib, hi'] using hbit

/-! ## Slots -/

/-- The pointer that the store hash of a thread holds for an address. -/
def slotAt (s : DepCore) (tid : ℤ) (va : Addr) : Option UopPtr :=
  (s.coreMapData tid).bind fun d =>
    (d.oracleMemHash (memMapKey va false)).bind fun e => e.uop (firstByte va)

/-- Every entry of every store hash is sound. -/
def EntriesOk (s : DepCore) : Prop :=
  ∀ tid d key e, s.coreMapData tid = some d → d.oracleMemHash key = some e → EntryOk e

/-- Only the map data matters for the slots. -/
theorem slotAt_congr {s s' : DepCore} (h : s'.coreMapData = s.coreMapData) :
    slotAt s' = slotAt s := by
  funext tid va
  simp [slotAt, h]

/-- The entries are those of the map data only. -/
theorem EntriesOk.congr {s s' : DepCore} (hs : EntriesOk s)
    (h : s'.coreMapData = s.coreMapData) : EntriesOk s' := by
  unfold EntriesOk
  rw [h]
  exact hs

/-- Replacing one entry of the hash of one thread. -/
theorem slotAt_setEntry {s : DepCore} {tid : ℤ} {d : MapData} (hd : s.coreMapData tid = some d)
    (va : Addr) (e : Option MemMapEntry) {t : ℤ} {a : Addr} :
    slotAt (s.setMapData tid
        { d with oracleMemHash := Function.update d.oracleMemHash (memMapKey va false) e }) t a =
      if t = tid ∧ a >>> 3 = va >>> 3 then e.bind fun e => e.uop (firstByte a)
      else slotAt s t a := by
  by_cases ht : t = tid
  · subst ht
    by_cases ha : a >>> 3 = va >>> 3
    · have hkey := (memMapKey_eq_iff a va).mpr ha
      simp [slotAt, ha, hkey]
    · have hkey : memMapKey a false ≠ memMapKey va false :=
        fun hk => ha ((memMapKey_eq_iff a va).mp hk)
      simp [slotAt, ha, hkey, hd]
  · simp [slotAt, ht]

/-- An entry that is sound keeps all of them sound. -/
theorem EntriesOk.setEntry {s : DepCore} {tid : ℤ} {d : MapData} (h : EntriesOk s)
    (hd : s.coreMapData tid = some d) (key : Addr) {e : Option MemMapEntry}
    (he : ∀ e', e = some e' → EntryOk e') :
    EntriesOk (s.setMapData tid
      { d with oracleMemHash := Function.update d.oracleMemHash key e }) := by
  intro t d' key' e' hd' he'
  by_cases ht : t = tid
  · subst ht
    simp only [DepCore.setMapData_coreMapData, Function.update_self, Option.some.injEq] at hd'
    subst hd'
    by_cases hk : key' = key
    · subst hk
      simp only [Function.update_self] at he'
      exact he e' he'
    · simp only [Function.update_of_ne hk] at he'
      exact h t d key' e' hd he'
  · rw [DepCore.setMapData_coreMapData, Function.update_of_ne ht] at hd'
    exact h t d' key' e' hd' he'

/-- The slots of one quadword of a thread. -/
theorem slotAt_of_entry {s : DepCore} {tid : ℤ} {d : MapData} {va : Addr}
    (hd : s.coreMapData tid = some d) {e : Option MemMapEntry}
    (he : d.oracleMemHash (memMapKey va false) = e) {a : Addr} (ha : a >>> 3 = va >>> 3) :
    slotAt s tid a = e.bind fun e => e.uop (firstByte a) := by
  have hkey := (memMapKey_eq_iff a va).mpr ha
  simp [slotAt, hd, hkey, he]

/-- Recording a store puts it at its address, whatever was there before. -/
theorem updateStoreHash_spec {k : DepKnobs} {s s' : DepCore} {p : UopPtr} (hok : EntriesOk s)
    (hoff : (s.heap p).offPath = false) (h : s.updateStoreHash k p = some s') :
    EntriesOk s' ∧ ∀ t a, slotAt s' t a =
      if t = (s.heap p).threadId ∧ a = (s.heap p).vaddr then some p else slotAt s t a := by
  unfold DepCore.updateStoreHash at h
  dsimp only at h
  split at h
  · simp at h
  · next d hd =>
      split at h
      · simp at h
      · next e he =>
          obtain rfl := Option.some.inj h
          rw [hoff] at he ⊢
          -- the entry that is written to is the old one of the quadword, or an empty one
          have hold : (∀ i < bytesInQuadword, e.storeMask.getLsbD i = (e.uop i).isSome) ∧
              ∀ a : Addr, a >>> 3 = (s.heap p).vaddr >>> 3 →
                slotAt s (s.heap p).threadId a = e.uop (firstByte a) := by
            cases hentry : d.oracleMemHash (memMapKey (s.heap p).vaddr false) with
            | some e₀ =>
                obtain rfl : e₀ = e := by
                  rw [hentry] at he
                  split at he <;> simpa using he
                refine ⟨(hok _ d _ e₀ hd hentry).bits, fun a ha => ?_⟩
                rw [slotAt_of_entry hd hentry ha]
                rfl
            | none =>
                obtain rfl : MemMapEntry.fresh = e := by
                  rw [hentry] at he
                  split at he
                  · simp at he
                  · simpa using he
                refine ⟨fun i _ => by simp [MemMapEntry.fresh], fun a ha => ?_⟩
                rw [slotAt_of_entry hd hentry ha]
                rfl
          refine ⟨hok.setEntry hd _ ?_, fun t a => ?_⟩
          · intro e' he'
            obtain rfl := Option.some.inj he'
            exact EntryOk.set p hold.1 (firstByte_lt _)
          · rw [slotAt_setEntry hd]
            by_cases ht : t = (s.heap p).threadId
            · subst ht
              by_cases ha : a >>> 3 = (s.heap p).vaddr >>> 3
              · by_cases heq : a = (s.heap p).vaddr
                · simp [heq]
                · have hbyte : firstByte a ≠ firstByte (s.heap p).vaddr :=
                    fun hb => heq (addr_eq_of_parts ha hb)
                  simp [ha, heq, hbyte, hold.2 a ha]
              · have hne : a ≠ (s.heap p).vaddr := fun h' => ha (h' ▸ rfl)
                simp [ha, hne]
            · simp [ht]

/-- Deleting a store empties the slot of its address if the slot still is the store's own. -/
theorem deleteStoreHashEntry_spec {k : DepKnobs} {s : DepCore} {p : UopPtr}
    (hdep : k.ignoreDep = false) (hok : EntriesOk s) (hoff : (s.heap p).offPath = false) :
    EntriesOk (s.deleteStoreHashEntry k p) ∧
      ∀ t a, slotAt (s.deleteStoreHashEntry k p) t a =
        if t = (s.heap p).threadId ∧ a = (s.heap p).vaddr ∧ slotAt s t a = some p then none
        else slotAt s t a := by
  have hkeep : ∀ t a, ¬ (slotAt s (s.heap p).threadId (s.heap p).vaddr = some p) →
      slotAt s t a =
        if t = (s.heap p).threadId ∧ a = (s.heap p).vaddr ∧ slotAt s t a = some p then none
        else slotAt s t a := by
    intro t a hno
    rw [if_neg]
    rintro ⟨rfl, rfl, hp⟩
    exact hno hp
  unfold DepCore.deleteStoreHashEntry
  dsimp only
  rw [hdep, hoff]
  simp only [Bool.false_eq_true, if_false]
  split
  · next hd => exact ⟨hok, fun t a => hkeep t a (by simp [slotAt, hd])⟩
  · next d hd =>
      split
      · next he =>
          refine ⟨hok, fun t a => hkeep t a ?_⟩
          rw [slotAt_of_entry hd he rfl]
          simp
      · next e he =>
          have hslot : slotAt s (s.heap p).threadId (s.heap p).vaddr =
              e.uop (firstByte (s.heap p).vaddr) := by
            rw [slotAt_of_entry hd he rfl]
            rfl
          have heok := hok _ d _ e hd he
          split
          · next hp =>
              refine ⟨hok.setEntry hd _ ?_, fun t a => ?_⟩
              · intro e' he'
                split at he'
                · simp at he'
                · next hm =>
                    obtain rfl := Option.some.inj he'
                    exact heok.clear hm
              · rw [slotAt_setEntry hd]
                by_cases ht : t = (s.heap p).threadId
                · subst ht
                  by_cases ha : a >>> 3 = (s.heap p).vaddr >>> 3
                  · have hold : slotAt s (s.heap p).threadId a = e.uop (firstByte a) := by
                      rw [slotAt_of_entry hd he ha]
                      rfl
                    by_cases heq : a = (s.heap p).vaddr
                    · rw [heq] at hold ⊢
                      by_cases hm : e.storeMask &&& ~~~(1#8 <<< firstByte (s.heap p).vaddr) = 0#8
                      · simp [hm, hold, hp]
                      · simp [hm, hold, hp]
                    · have hbyte : firstByte a ≠ firstByte (s.heap p).vaddr :=
                        fun hb => heq (addr_eq_of_parts ha hb)
                      by_cases hm : e.storeMask &&& ~~~(1#8 <<< firstByte (s.heap p).vaddr) = 0#8
                      · simp [ha, heq, hm, hold, heok.alone hm (firstByte_lt a) hbyte]
                      · simp [ha, heq, hm, hold, hbyte]
                  · have hne : a ≠ (s.heap p).vaddr := fun h' => ha (h' ▸ rfl)
                    simp [ha, hne]
                · simp [ht]
          · next hp => exact ⟨hok, fun t a => hkeep t a (hslot ▸ hp)⟩

/-! ## The slots along a run -/

/-- A store of a thread that starts at an address. -/
def startsAt (tid : ℤ) (va : Addr) (r : Fetched) : Bool :=
  (r.tid : ℤ) == tid && r.trace.memType.hashedStore && r.trace.vaddr == va

/-- The last store of a thread that starts at an address, unless it has been deleted. -/
def visibleAt (log : List Fetched) (tid : ℤ) (va : Addr) : Option Fetched :=
  (lastMatch (startsAt tid va) log).filter fun r => !r.retired

/-- What the store hashes hold in every state of a run. -/
structure HashBooks (x : Logged) : Prop where
  entries : EntriesOk x.core
  slots : ∀ (tid : ℤ) (va : Addr), slotAt x.core tid va = (visibleAt x.log tid va).map (·.uop)

/-- What is visible at an address is a live store of the thread that starts there. -/
theorem visibleAt_eq_some {log : List Fetched} {tid : ℤ} {va : Addr} {r : Fetched}
    (h : visibleAt log tid va = some r) :
    r ∈ live log ∧ r.tid = tid ∧ r.trace.memType.hashedStore = true ∧ r.trace.vaddr = va := by
  obtain ⟨hlast, hret⟩ := Option.filter_eq_some_iff.mp h
  obtain ⟨hmem, hat⟩ := lastMatch_mem hlast
  simp only [startsAt, Bool.and_eq_true, beq_iff_eq] at hat
  exact ⟨mem_live.mpr ⟨hmem, by simpa using hret⟩, hat.1.1, hat.1.2, hat.2⟩

/-- The hash is empty at the start. -/
theorem HashBooks.start : HashBooks Logged.start where
  entries := fun _ _ _ _ h => nomatch h
  slots := fun _ _ => rfl

/-- Writing the registers leaves the store hash alone. -/
@[simp] theorem regWrites_oracleMemHash (d : MapData) (p : UopPtr) (u : CoreUop) :
    (regWrites d p u).oracleMemHash = d.oracleMemHash := by
  rw [regWrites, foldl_setReg]

/-- Mapping the registers of a uop leaves the store hashes alone. -/
theorem slotAt_mapped (k : DepKnobs) (s : DepCore) (p : UopPtr) :
    slotAt (mapped k s p) = slotAt s := by
  funext t a
  by_cases ht : t = (s.heap p).threadId
  · subst ht
    cases hd : s.coreMapData (s.heap p).threadId with
    | none => simp [slotAt, mapped, hd, MapData.initial]
    | some d => simp [slotAt, mapped, hd]
  · simp [slotAt, mapped, ht]

/-- Mapping a uop keeps the entries sound. -/
theorem EntriesOk.mapped (k : DepKnobs) {s : DepCore} (p : UopPtr) (h : EntriesOk s) :
    EntriesOk (mapped k s p) := by
  intro t d key e hd he
  by_cases ht : t = (s.heap p).threadId
  · subst ht
    simp only [Analysis.mapped, DepCore.setMapData_coreMapData, Function.update_self,
      Option.some.injEq] at hd
    subst hd
    rw [regWrites_oracleMemHash] at he
    cases hd' : s.coreMapData (s.heap p).threadId with
    | none => simp [hd', MapData.initial] at he
    | some d =>
        rw [hd'] at he
        exact h _ d key e hd' he
  · simp only [Analysis.mapped, DepCore.setMapData_coreMapData, DepCore.setUop_coreMapData,
      Function.update_of_ne ht] at hd
    exact h t d key e hd he

/-- Freeing an object empties the slot that still is its own. -/
theorem free_slots {k : DepKnobs} {s : DepCore} {p : UopPtr} (hdep : k.ignoreDep = false)
    (hok : EntriesOk s) (hoff : (s.heap p).offPath = false) :
    EntriesOk (s.free k p) ∧ ∀ t a, slotAt (s.free k p) t a =
      if (s.heap p).memType.hashedStore = true ∧ t = (s.heap p).threadId ∧
          a = (s.heap p).vaddr ∧ slotAt s t a = some p then none
      else slotAt s t a := by
  let s₁ := s.setUop p { s.heap p with uopNum := 0, valid := false }
  have hheap : s₁.heap p = { s.heap p with uopNum := 0, valid := false } := by simp [s₁]
  have hslots : slotAt s₁ = slotAt s := slotAt_congr rfl
  have hok₁ : EntriesOk s₁ := hok.congr rfl
  obtain ⟨hdok, hdslots⟩ := deleteStoreHashEntry_spec hdep hok₁ (by rw [hheap]; exact hoff)
  have hfree : (s.free k p).coreMapData =
      if (s.heap p).memType.hashedStore then (s₁.deleteStoreHashEntry k p).coreMapData
      else s₁.coreMapData := by
    unfold DepCore.free
    dsimp only
    rw [DepCore.setUop_coreMapData, hheap, apply_ite DepCore.coreMapData]
  cases hstore : (s.heap p).memType.hashedStore with
  | true =>
      rw [hstore, if_pos rfl] at hfree
      refine ⟨hdok.congr hfree, fun t a => ?_⟩
      rw [slotAt_congr hfree, hdslots, hslots, hheap]
      simp
  | false =>
      rw [hstore, if_neg (by decide)] at hfree
      refine ⟨hok₁.congr hfree, fun t a => ?_⟩
      rw [slotAt_congr hfree, hslots]
      simp

/-- Freeing objects that no slot holds changes no slot. -/
theorem freeAll_slots {k : DepKnobs} (hdep : k.ignoreDep = false) (cs : List UopPtr) {s : DepCore}
    (hok : EntriesOk s) (hoff : ∀ q, (s.heap q).offPath = false)
    (hno : ∀ c ∈ cs, ∀ t a, slotAt s t a ≠ some c) :
    EntriesOk (freeAll k s cs) ∧ slotAt (freeAll k s cs) = slotAt s := by
  induction cs generalizing s with
  | nil => exact ⟨hok, rfl⟩
  | cons c cs ih =>
      obtain ⟨hok₁, hslots⟩ := free_slots hdep hok (hoff c)
      have hsame : slotAt (s.free k c) = slotAt s := by
        funext t a
        rw [hslots, if_neg]
        rintro ⟨-, -, -, h⟩
        exact hno c List.mem_cons_self t a h
      have hrel : slotAt ((s.free k c).releaseEntry c) = slotAt s :=
        (slotAt_congr rfl).trans hsame
      have hoff₁ : ∀ q, (((s.free k c).releaseEntry c).heap q).offPath = false := by
        intro q
        show ((s.free k c).heap q).offPath = false
        rw [free_heap]
        by_cases hq : q = c
        · simp [hq, hoff c]
        · simp [hq, hoff q]
      have hok₂ : EntriesOk ((s.free k c).releaseEntry c) := hok₁.congr rfl
      have hno₁ : ∀ c' ∈ cs, ∀ t a, slotAt ((s.free k c).releaseEntry c) t a ≠ some c' := by
        intro c' hc' t a
        rw [hrel]
        exact hno c' (List.mem_cons_of_mem _ hc') t a
      obtain ⟨hok', hslots'⟩ := ih hok₂ hoff₁ hno₁
      exact ⟨hok', hslots'.trans hrel⟩

/-- A fetched uop becomes visible at its address if it is a store. -/
theorem visibleAt_concat (log : List Fetched) (r : Fetched) (hr : r.retired = false) (tid : ℤ)
    (va : Addr) :
    visibleAt (log ++ [r]) tid va =
      if startsAt tid va r then some r else visibleAt log tid va := by
  unfold visibleAt
  rw [lastMatch_concat]
  split
  · simp [hr]
  · rfl

/-- A retired uop is no longer visible; what it had replaced does not come back. -/
theorem visibleAt_retire (log : List Fetched) (p : UopPtr) (tid : ℤ) (va : Addr) :
    visibleAt (log.map (Logged.retireEntry p)) tid va =
      (visibleAt log tid va).filter fun r => r.uop ≠ p := by
  unfold visibleAt
  rw [lastMatch_map (fun r => by simp [startsAt])]
  cases lastMatch (startsAt tid va) log with
  | none => rfl
  | some r =>
      by_cases hp : r.uop = p
      · cases hret : r.retired <;> simp [Logged.retireEntry, Option.filter, hp, hret]
      · cases hret : r.retired <;> simp [Logged.retireEntry, Option.filter, hp, hret]

/-- The end of a thread leaves what other threads see. -/
theorem visibleAt_endThread (log : List Fetched) {tid : ℕ} {t : ℤ} (ht : t ≠ tid) (va : Addr) :
    visibleAt (log.filter fun r => r.tid ≠ tid) t va = visibleAt log t va := by
  unfold visibleAt
  rw [lastMatch_filter]
  intro r hr
  simp only [startsAt, Bool.and_eq_true, beq_iff_eq] at hr
  simpa [hr.1.1] using fun h' : r.tid = tid => ht (h' ▸ hr.1.1.symm)

/-- Only a store changes the map in `map_mem_dep`. -/
theorem mapMemDep_coreMapData {k : DepKnobs} {s s' : DepCore} {p : UopPtr}
    (hst : (s.heap p).memType.hashedStore = false) (h : s.mapMemDep k p = some s') :
    s'.coreMapData = s.coreMapData := by
  unfold DepCore.mapMemDep at h
  split at h
  · exact Option.some.inj h ▸ rfl
  · rw [hst, if_neg (by decide)] at h
    split at h
    · obtain ⟨⟨found, s₁⟩, h₁, rfl⟩ := Option.map_eq_some_iff.mp h
      unfold DepCore.addStoreDeps at h₁
      dsimp only at h₁
      split at h₁
      · simp at h₁
      · split at h₁
        · cases h₁
          rfl
        · split at h₁
          · simp at h₁
          · obtain ⟨heap, -, he⟩ := Option.map_eq_some_iff.mp h₁
            cases he
            rfl
    · exact Option.some.inj h ▸ rfl

/-- A fetch keeps the hash in step with the log. -/
theorem HashBooks.fetch {k : DepKnobs} (hdep : k.ignoreDep = false)
    (hobey : k.memObeyStoreDep = true) {x : Logged} {tid : ℕ} {t : TraceUop} {s' : DepCore}
    (hb : UopBooks x) (h : HashBooks x) (hs : x.core.fetch k tid t = some s') :
    HashBooks ⟨s', x.log ++ [Logged.entry k x tid t]⟩ := by
  obtain ⟨cs, -, hself, -, -, -, hmap, -⟩ := newUop_spec hb.owns tid t
  unfold DepCore.fetch at hs
  dsimp only at hs
  obtain ⟨s₂, h₂, rfl⟩ := Option.map_eq_some_iff.mp hs
  unfold DepCore.mapDeps at h₂
  rw [hdep, if_neg (by decide)] at h₂
  obtain ⟨s₁, h₁, h₂⟩ := Option.bind_eq_some_iff.mp h₂
  obtain rfl := mapUop_eq h₁
  set p := (x.core.newUop tid t).1
  set s := (x.core.newUop tid t).2
  have hok : EntriesOk (mapped k s p) := EntriesOk.mapped k p (h.entries.congr hmap)
  have hslots : slotAt (mapped k s p) = slotAt x.core :=
    (slotAt_mapped k s p).trans (slotAt_congr hmap)
  have hfixed : fixedPart ((mapped k s p).heap p) =
      { DepCore.uopOfTrace tid (x.core.uopCount tid) t with childUops := cs } := by
    rw [(mapped_keeps k s p).heap p, hself]
    rfl
  have htype : ((mapped k s p).heap p).memType = t.memType := congrArg CoreUop.memType hfixed
  have hva : ((mapped k s p).heap p).vaddr = t.vaddr := congrArg CoreUop.vaddr hfixed
  have htid : ((mapped k s p).heap p).threadId = tid := congrArg CoreUop.threadId hfixed
  have hoff : ((mapped k s p).heap p).offPath = false := congrArg CoreUop.offPath hfixed
  have hstarts : ∀ t' a, startsAt t' a (Logged.entry k x tid t) =
      ((tid : ℤ) == t' && t.memType.hashedStore && t.vaddr == a) := fun _ _ => rfl
  cases hst : t.memType.hashedStore with
  | true =>
      unfold DepCore.mapMemDep at h₂
      rw [hobey, htype, hst, if_neg (by decide), if_pos rfl] at h₂
      obtain ⟨hok', hslots'⟩ := updateStoreHash_spec hok hoff h₂
      refine ⟨hok'.congr rfl, fun t' a => ?_⟩
      rw [visibleAt_concat _ _ rfl, hstarts, hst]
      show slotAt s₂ t' a = _
      rw [hslots', hslots, htid, hva, h.slots t' a]
      by_cases heq : t' = tid ∧ a = t.vaddr
      · obtain ⟨rfl, rfl⟩ := heq
        simp [Logged.entry, p]
      · rw [if_neg (by simpa using heq), if_neg]
        simp only [Bool.and_true, Bool.and_eq_true, beq_iff_eq]
        rintro ⟨rfl, rfl⟩
        exact heq ⟨rfl, rfl⟩
  | false =>
      have hcore := mapMemDep_coreMapData (by rw [htype]; exact hst) h₂
      refine ⟨hok.congr hcore, fun t' a => ?_⟩
      rw [visibleAt_concat _ _ rfl, hstarts, hst]
      show slotAt s₂ t' a = _
      rw [slotAt_congr hcore, hslots, h.slots t' a]
      simp

/-- A retirement keeps the hash in step with the log. -/
theorem HashBooks.retire {k : DepKnobs} (hdep : k.ignoreDep = false) {x : Logged} {p : UopPtr}
    (hb : UopBooks x) (h : HashBooks x) (hp : p ∈ x.core.inFlight) :
    HashBooks ⟨{ x.core.freeUopResources k p with inFlight := x.core.inFlight.erase p },
      x.log.map (Logged.retireEntry p)⟩ := by
  rw [hb.inFlight] at hp
  obtain ⟨r, hr, rfl⟩ := List.mem_map.mp hp
  have hfixed := hb.fixed r hr
  have hchildren : (x.core.heap r.uop).childUops = r.children :=
    congrArg CoreUop.childUops hfixed
  have hno : ∀ c ∈ r.children, ∀ t a, slotAt x.core t a ≠ some c := by
    intro c hc t a he
    rw [h.slots] at he
    obtain ⟨r', hr', hu⟩ := Option.map_eq_some_iff.mp he
    exact hb.child_apart hr hc (visibleAt_eq_some hr').1 hu
  obtain ⟨hok₁, hslots₁⟩ := freeAll_slots hdep r.children h.entries hb.onPath hno
  obtain ⟨-, hheap, hpath, -⟩ := freeAll_spec k r.children
    (l := r.uop :: ((live x.log).filter fun r' => r'.uop ≠ r.uop).flatMap Fetched.objects)
    (by simpa using hb.owns_split hr)
  have hself : (freeAll k x.core r.children).heap r.uop = x.core.heap r.uop := by
    refine hheap r.uop fun hc => ?_
    exact hb.child_apart hr hc hr rfl
  obtain ⟨hok₂, hslots₂⟩ := free_slots hdep hok₁ ((hpath r.uop).trans (hb.onPath r.uop))
  have hcore : ({ x.core.freeUopResources k r.uop with
      inFlight := x.core.inFlight.erase r.uop } : DepCore).coreMapData =
      ((freeAll k x.core r.children).free k r.uop).coreMapData := by
    rw [← hchildren]
    rfl
  refine ⟨hok₂.congr hcore, fun t a => ?_⟩
  rw [slotAt_congr hcore, hslots₂, hslots₁, hself, h.slots t a, visibleAt_retire]
  have htype : (x.core.heap r.uop).memType = r.trace.memType := congrArg CoreUop.memType hfixed
  have hva : (x.core.heap r.uop).vaddr = r.trace.vaddr := congrArg CoreUop.vaddr hfixed
  have htid : (x.core.heap r.uop).threadId = r.tid := congrArg CoreUop.threadId hfixed
  cases hv : visibleAt x.log t a with
  | none => simp
  | some r' =>
      obtain ⟨hlive, htid', hst', hva'⟩ := visibleAt_eq_some hv
      by_cases hu : r'.uop = r.uop
      · obtain rfl := hb.live_unique hlive hr hu
        simp [htype, hva, htid, hst', htid', hva', Option.filter]
      · simp [hu, Option.filter]

/-- Each step keeps the hash in step with the log. -/
theorem HashBooks.step {k : DepKnobs} (hdep : k.ignoreDep = false)
    (hobey : k.memObeyStoreDep = true) {x x' : Logged} {a : DepAct} (hb : UopBooks x)
    (h : HashBooks x) (hs : x.step k a = some x') : HashBooks x' := by
  unfold Logged.step at hs
  obtain ⟨c, hc, rfl⟩ := Option.map_eq_some_iff.mp hs
  have hsame : c.coreMapData = x.core.coreMapData → HashBooks ⟨c, x.log⟩ := fun hcore =>
    ⟨h.entries.congr hcore, fun t va => (congrFun₂ (slotAt_congr hcore) t va).trans (h.slots t va)⟩
  cases a with
  | fetch tid t => exact h.fetch hdep hobey hb hc
  | advance p =>
      dsimp only [DepCore.step] at hc
      split at hc
      · exact hsame (Option.some.inj hc ▸ advance_coreMapData x.core p)
      · simp at hc
  | schedule p env =>
      dsimp only [DepCore.step] at hc
      split at hc
      · exact hsame (Option.some.inj hc ▸ uopSchedule_coreMapData x.core p env)
      · simp at hc
  | complete p cycle => exact hsame (Option.some.inj hc ▸ rfl)
  | retire p =>
      dsimp only [DepCore.step] at hc
      split at hc
      · next hp => exact Option.some.inj hc ▸ h.retire hdep hb hp.1
      · simp at hc
  | endThread tid =>
      dsimp only [DepCore.step] at hc
      split at hc
      · simp at hc
      · obtain rfl := Option.some.inj hc
        refine ⟨?_, fun t va => ?_⟩
        · intro t d key e hd he
          by_cases ht : t = tid
          · subst ht
            simp [DepCore.deleteMap] at hd
          · simp only [DepCore.deleteMap, Function.update_of_ne ht] at hd
            exact h.entries t d key e hd he
        · by_cases ht : t = tid
          · subst ht
            have hnone : visibleAt (x.log.filter fun r => r.tid ≠ tid) tid va = none := by
              cases hv : visibleAt (x.log.filter fun r => r.tid ≠ tid) tid va with
              | none => rfl
              | some r =>
                  obtain ⟨hr, htid, -⟩ := visibleAt_eq_some hv
                  have hne := (List.mem_filter.mp (mem_live.mp hr).1).2
                  have heq : r.tid = tid := by exact_mod_cast htid
                  simp [heq] at hne
            show _ = (visibleAt (x.log.filter fun r => r.tid ≠ tid) tid va).map _
            rw [hnone]
            simp [slotAt, DepCore.deleteMap]
          · show _ = (visibleAt (x.log.filter fun r => r.tid ≠ tid) t va).map _
            rw [visibleAt_endThread _ ht, ← h.slots t va]
            simp [slotAt, DepCore.deleteMap, ht]
  | tick => exact hsame (Option.some.inj hc ▸ rfl)

/-- Every run keeps the hash in step with the log. -/
theorem HashBooks.run {k : DepKnobs} (hdep : k.ignoreDep = false)
    (hobey : k.memObeyStoreDep = true) {acts : List DepAct} {x : Logged}
    (hrun : Logged.start.run k acts = some x) : HashBooks x := by
  have hboth : UopBooks x ∧ HashBooks x :=
    Logged.run_inv (I := fun x => UopBooks x ∧ HashBooks x) ⟨UopBooks.start, HashBooks.start⟩
      (fun _ _ _ h hs => ⟨h.1.step hs, h.2.step hdep hobey h.1 hs⟩) hrun
  exact hboth.2

end MacSim.Analysis
