import MacSim.Analysis.StoreHash

/-!
# Store-to-load dependences

What `add_store_deps` finds, against the byte-level definition: the youngest older store of
the thread that is not deleted and shares a byte with the load.

The source finds exactly that store when the store is still visible from the quadword of the
load and the walk over the quadword does not lose it to the `unsigned int` it keeps its
number in; and it makes the load depend on it unless a source the load already has carries,
at that moment, the number of the store.
-/

set_option autoImplicit false

namespace MacSim.Analysis

open MacSim.Model MacSim.Computation

/-! ## Overlap -/

/-- Two accesses share a byte. -/
def sharesByte (a₀ : Addr) (s₀ : ℕ) (a₁ : Addr) (s₁ : ℕ) : Prop :=
  ∃ i < s₀, ∃ j < s₁, a₀ + BitVec.ofNat 64 i = a₁ + BitVec.ofNat 64 j

instance (a₀ : Addr) (s₀ : ℕ) (a₁ : Addr) (s₁ : ℕ) : Decidable (sharesByte a₀ s₀ a₁ s₁) :=
  inferInstanceAs (Decidable (∃ i < s₀, ∃ j < s₁, _))

/-- An access to at least one byte that ends within the address space, or the empty access at
address `0` that stands for an uncoalesced parent. -/
def AccessOk (t : TraceUop) : Prop :=
  (0 < t.memSize ∧ t.vaddr.toNat + t.memSize < 2 ^ 64) ∨ (t.vaddr = 0 ∧ t.memSize = 0)

/-- Addresses add up as numbers as long as they fit. -/
theorem toNat_add_lt {a : Addr} {i : ℕ} (h : a.toNat + i < 2 ^ 64) :
    (a + BitVec.ofNat 64 i).toNat = a.toNat + i := by
  rw [BitVec.toNat_add, BitVec.toNat_ofNat]
  have hi : i % 2 ^ 64 = i := Nat.mod_eq_of_lt (by omega)
  rw [hi]
  exact Nat.mod_eq_of_lt h

/-- The bytes of a proper access are numbered from its address. -/
theorem AccessOk.add {t : TraceUop} (h : AccessOk t) {i : ℕ} (hi : i ≤ t.memSize) :
    (t.vaddr + BitVec.ofNat 64 i).toNat = t.vaddr.toNat + i := by
  apply toNat_add_lt
  rcases h with ⟨-, h⟩ | ⟨h₀, hs⟩
  · omega
  · simp only [h₀, hs] at hi ⊢
    simp
    omega

/-- The overlap test is right on such accesses. -/
theorem byteOverlap_iff {t u : TraceUop} (ht : AccessOk t) (hu : AccessOk u) :
    byteOverlap t.vaddr t.memSize u.vaddr u.memSize = true ↔
      sharesByte t.vaddr t.memSize u.vaddr u.memSize := by
  have htest : byteOverlap t.vaddr t.memSize u.vaddr u.memSize = true ↔
      t.vaddr.toNat < u.vaddr.toNat + u.memSize ∧ u.vaddr.toNat < t.vaddr.toNat + t.memSize := by
    unfold byteOverlap
    simp only [BitVec.le_def, ht.add le_rfl, hu.add le_rfl, Bool.not_eq_true', Bool.or_eq_false_iff,
      decide_eq_false_iff_not, not_le]
  -- an empty access sits at address `0`, where the test sees no overlap
  have hempty : ∀ {v : TraceUop}, AccessOk v → v.memSize = 0 → v.vaddr.toNat = 0 := by
    rintro v (⟨h, -⟩ | ⟨h, -⟩) h₀
    · omega
    · rw [h]
      rfl
  rw [htest]
  constructor
  · rintro ⟨h₁, h₂⟩
    -- the byte at the larger of the two start addresses
    rcases le_total t.vaddr.toNat u.vaddr.toNat with hle | hle
    · have hpos : 0 < u.memSize := by
        by_contra h₀
        have := hempty hu (by omega)
        omega
      refine ⟨u.vaddr.toNat - t.vaddr.toNat, by omega, 0, hpos, ?_⟩
      apply BitVec.eq_of_toNat_eq
      rw [ht.add (by omega), hu.add (by omega)]
      omega
    · have hpos : 0 < t.memSize := by
        by_contra h₀
        have := hempty ht (by omega)
        omega
      refine ⟨0, hpos, t.vaddr.toNat - u.vaddr.toNat, by omega, ?_⟩
      apply BitVec.eq_of_toNat_eq
      rw [ht.add (by omega), hu.add (by omega)]
      omega
  · rintro ⟨i, hi, j, hj, he⟩
    have hn := congrArg BitVec.toNat he
    rw [ht.add hi.le, hu.add hj.le] at hn
    omega

/-! ## The visible stores of a quadword -/

/-- The address of a byte in the quadword of `va`. -/
def byteAddr (va : Addr) (b : ℕ) : Addr := ((va >>> 3) <<< 3) + BitVec.ofNat 64 b

/-- The address of a byte is that of its quadword and its place there. -/
theorem byteAddr_toNat (va : Addr) {b : ℕ} (hb : b < bytesInQuadword) :
    (byteAddr va b).toNat = va.toNat / 8 * 8 + b := by
  have hb' : b < 8 := hb
  have hva := va.isLt
  unfold byteAddr
  rw [BitVec.toNat_add, BitVec.toNat_shiftLeft, BitVec.toNat_ushiftRight, BitVec.toNat_ofNat,
    Nat.shiftRight_eq_div_pow, Nat.shiftLeft_eq]
  omega

/-- The address of a byte lies in its quadword. -/
theorem byteAddr_quadword (va : Addr) {b : ℕ} (hb : b < bytesInQuadword) :
    byteAddr va b >>> 3 = va >>> 3 := by
  have hb' : b < 8 := hb
  apply BitVec.eq_of_toNat_eq
  rw [BitVec.toNat_ushiftRight, BitVec.toNat_ushiftRight, byteAddr_toNat va hb,
    Nat.shiftRight_eq_div_pow, Nat.shiftRight_eq_div_pow]
  omega

/-- The place of a byte is found again in its address. -/
theorem byteAddr_firstByte (va : Addr) {b : ℕ} (hb : b < bytesInQuadword) :
    firstByte (byteAddr va b) = b := by
  have hb' : b < 8 := hb
  rw [firstByte_eq_mod, byteAddr_toNat va hb]
  omega

/-- An address in the quadword is that of its own byte. -/
theorem byteAddr_self {a va : Addr} (h : a >>> 3 = va >>> 3) : byteAddr va (firstByte a) = a :=
  addr_eq_of_parts ((byteAddr_quadword va (firstByte_lt a)).trans h.symm)
    (byteAddr_firstByte va (firstByte_lt a))

/-- The visible stores of a thread that start in the quadword of an address, by address. -/
def visibleIn (log : List Fetched) (tid : ℤ) (va : Addr) : List Fetched :=
  (List.range bytesInQuadword).filterMap fun b => visibleAt log tid (byteAddr va b)

/-- A store is visible in a quadword exactly when it starts there and is visible where it starts. -/
theorem mem_visibleIn {log : List Fetched} {tid : ℤ} {va : Addr} {r : Fetched} :
    r ∈ visibleIn log tid va ↔
      visibleAt log tid r.trace.vaddr = some r ∧ r.trace.vaddr >>> 3 = va >>> 3 := by
  unfold visibleIn
  rw [List.mem_filterMap]
  constructor
  · rintro ⟨b, hb, hr⟩
    have hva := (visibleAt_eq_some hr).2.2.2
    rw [← hva] at hr
    exact ⟨hr, hva ▸ byteAddr_quadword va (List.mem_range.mp hb)⟩
  · rintro ⟨hr, hq⟩
    refine ⟨firstByte r.trace.vaddr, List.mem_range.mpr (firstByte_lt _), ?_⟩
    rw [byteAddr_self hq]
    exact hr

/-- They are in the order of their addresses. -/
theorem visibleIn_sorted (log : List Fetched) (tid : ℤ) (va : Addr) :
    (visibleIn log tid va).Pairwise fun a b => a.trace.vaddr < b.trace.vaddr := by
  unfold visibleIn
  rw [List.pairwise_filterMap]
  refine (List.pairwise_lt_range).imp_of_mem ?_
  intro b c hb hc hlt r hr w hw
  rw [(visibleAt_eq_some hr).2.2.2, (visibleAt_eq_some hw).2.2.2, BitVec.lt_def,
    byteAddr_toNat va (List.mem_range.mp hb), byteAddr_toNat va (List.mem_range.mp hc)]
  omega

/-- The only visible store of the quadword, when it starts at the address itself. -/
def sole (log : List Fetched) (tid : ℤ) (va : Addr) : Option Fetched :=
  match visibleIn log tid va with
  | [r] => if r.trace.vaddr = va then some r else none
  | _ => none

/-- A store is the sole one exactly when it is the only one visible and starts at the address. -/
theorem sole_eq_some {log : List Fetched} {tid : ℤ} {va : Addr} {r : Fetched} :
    sole log tid va = some r ↔ visibleIn log tid va = [r] ∧ r.trace.vaddr = va := by
  unfold sole
  constructor
  · intro h
    split at h
    · next r' hl =>
        split at h
        · next hva =>
            obtain rfl := Option.some.inj h
            exact ⟨hl, hva⟩
        · simp at h
    · simp at h
  · rintro ⟨hl, hva⟩
    simp [hl, hva]

/-! ## The walk -/

/-- The walk of `add_store_deps`, over uops. -/
def latestOf : List Fetched → Option Fetched → ℕ → Option Fetched
  | [], found, _ => found
  | r :: rest, found, opNum =>
      if opNum < r.num then latestOf rest (some r) (r.num % 2 ^ 32)
      else latestOf rest found opNum

/-- The latest store of the uops is the uop of the latest store. -/
theorem latestStore_map {heap : UopHeap} (l : List Fetched)
    (h : ∀ r ∈ l, (heap r.uop).uopNum = r.num) (found : Option Fetched) (m : ℕ) :
    DepCore.latestStore heap (l.map (·.uop)) (found.map (·.uop)) m =
      (latestOf l found m).map (·.uop) := by
  induction l generalizing found m with
  | nil => rfl
  | cons r l ih =>
      have hr := h r List.mem_cons_self
      have hl := fun w hw => h w (List.mem_cons_of_mem r hw)
      simp only [List.map_cons, DepCore.latestStore, latestOf, hr]
      split
      · exact ih hl (some r) _
      · exact ih hl found m

/-- The walk keeps what it has when nothing exceeds the number it remembers. -/
theorem latestOf_stay {l : List Fetched} {m : ℕ} (h : ∀ w ∈ l, w.num ≤ m)
    (found : Option Fetched) : latestOf l found m = found := by
  induction l with
  | nil => rfl
  | cons w l ih =>
      have hw := h w List.mem_cons_self
      rw [latestOf, if_neg (by omega)]
      exact ih fun v hv => h v (List.mem_cons_of_mem w hv)

/-- The walk takes a store that is younger than everything before it. -/
theorem latestOf_take {l₁ l₂ : List Fetched} {y : Fetched} {m : ℕ} (hm : m < y.num)
    (h : ∀ w ∈ l₁, w.num < y.num) (found : Option Fetched) :
    latestOf (l₁ ++ y :: l₂) found m = latestOf l₂ (some y) (y.num % 2 ^ 32) := by
  induction l₁ generalizing found m with
  | nil => rw [List.nil_append, latestOf, if_pos hm]
  | cons w l₁ ih =>
      have hw := h w List.mem_cons_self
      have hl := fun v hv => h v (List.mem_cons_of_mem w hv)
      rw [List.cons_append, latestOf]
      split
      · exact ih (lt_of_le_of_lt (Nat.mod_le _ _) hw) hl _
      · exact ih hm hl _

/-- What the walk ends with was not exceeded afterwards. -/
theorem latestOf_some {l : List Fetched} {found : Option Fetched} {m : ℕ} {y : Fetched}
    (h : latestOf l found m = some y) :
    (found = some y ∧ ∀ w ∈ l, w.num ≤ m) ∨
      ∃ l₁ l₂, l = l₁ ++ y :: l₂ ∧ y.num ≠ 0 ∧ ∀ w ∈ l₂, w.num ≤ y.num % 2 ^ 32 := by
  induction l generalizing found m with
  | nil => exact .inl ⟨h, fun _ hw => (List.not_mem_nil hw).elim⟩
  | cons r l ih =>
      rw [latestOf] at h
      split at h
      · next hlt =>
          rcases ih h with ⟨hr, hle⟩ | ⟨l₁, l₂, rfl, hy⟩
          · obtain rfl := Option.some.inj hr
            exact .inr ⟨[], l, rfl, by omega, hle⟩
          · exact .inr ⟨r :: l₁, l₂, rfl, hy⟩
      · next hge =>
          rcases ih h with ⟨hf, hle⟩ | ⟨l₁, l₂, rfl, hy⟩
          · refine .inl ⟨hf, fun w hw => ?_⟩
            rcases List.mem_cons.mp hw with rfl | hw
            · omega
            · exact hle w hw
          · exact .inr ⟨r :: l₁, l₂, rfl, hy⟩

/-! ## The entry of a quadword, read as uops -/

/-- An entry of the hash holds the visible stores of the quadword of `va`, and their objects
hold what they were fetched with. -/
structure QuadView (heap : UopHeap) (log : List Fetched) (tid : ℤ) (va : Addr)
    (e : MemMapEntry) : Prop where
  ok : EntryOk e
  slots : ∀ a : Addr, a >>> 3 = va >>> 3 →
    e.uop (firstByte a) = (visibleAt log tid a).map (·.uop)
  heap : ∀ r ∈ visibleIn log tid va, (heap r.uop).uopNum = r.num ∧
    (heap r.uop).vaddr = r.trace.vaddr ∧ (heap r.uop).memSize = r.trace.memSize

section QuadView

variable {heap : UopHeap} {log : List Fetched} {tid : ℤ} {va : Addr} {e : MemMapEntry}

/-- The slot of a byte is the uop visible at that byte. -/
theorem QuadView.slot (v : QuadView heap log tid va e) {b : ℕ} (hb : b < bytesInQuadword) :
    e.uop b = (visibleAt log tid (byteAddr va b)).map (·.uop) := by
  have h := v.slots (byteAddr va b) (byteAddr_quadword va hb)
  rwa [byteAddr_firstByte va hb] at h

/-- The pending stores of an entry are the uops visible in its quadword. -/
theorem QuadView.pendingStores (v : QuadView heap log tid va e) :
    DepCore.pendingStores e = (visibleIn log tid va).map (·.uop) := by
  unfold DepCore.pendingStores visibleIn
  rw [List.map_filterMap]
  refine List.filterMap_congr fun b hb => ?_
  have hb := List.mem_range.mp hb
  rw [v.ok.bits b hb, ← v.slot hb]
  cases e.uop b <;> rfl

/-- The overlapping stores of an entry are the uops visible there that share a byte. -/
theorem QuadView.overlapping (v : QuadView heap log tid va e) (size : ℕ) :
    DepCore.overlapping heap va size e =
      ((visibleIn log tid va).filter fun r =>
        byteOverlap r.trace.vaddr r.trace.memSize va size).map (·.uop) := by
  unfold DepCore.overlapping
  rw [v.pendingStores, List.filter_map]
  refine congrArg _ (List.filter_congr fun r hr => ?_)
  obtain ⟨-, hva, hsize⟩ := v.heap r hr
  simp [hva, hsize]

/-- The mask is that of the load's first byte alone iff the only visible store of the
quadword starts there. -/
theorem QuadView.storeMask (v : QuadView heap log tid va e) :
    e.storeMask = 1#8 <<< firstByte va ↔ ∃ r, sole log tid va = some r := by
  constructor
  · intro hmask
    have hbits : ∀ b < bytesInQuadword, (e.uop b).isSome = decide (b = firstByte va) := by
      intro b hb
      rw [← v.ok.bits b hb, hmask, getLsbD_bit hb]
    have hself : (e.uop (firstByte va)).isSome = true := by simp [hbits _ (firstByte_lt va)]
    rw [v.slots va rfl, Option.isSome_map] at hself
    obtain ⟨r, hr⟩ := Option.isSome_iff_exists.mp hself
    have hva := (visibleAt_eq_some hr).2.2.2
    -- every visible store of the quadword is this one
    have hall : ∀ w ∈ visibleIn log tid va, w = r := by
      intro w hw
      obtain ⟨hvis, hq⟩ := mem_visibleIn.mp hw
      have hb := hbits (firstByte w.trace.vaddr) (firstByte_lt _)
      rw [v.slots _ hq, hvis] at hb
      have heq : w.trace.vaddr = va := addr_eq_of_parts hq (by simpa using hb)
      rw [heq, hr] at hvis
      exact (Option.some.inj hvis).symm
    have hmem : r ∈ visibleIn log tid va := mem_visibleIn.mpr ⟨hva.symm ▸ hr, hva ▸ rfl⟩
    refine ⟨r, sole_eq_some.mpr ⟨?_, hva⟩⟩
    have hsorted := visibleIn_sorted log tid va
    match hl : visibleIn log tid va with
    | [] => simp [hl] at hmem
    | [w] => rw [hall w (by simp [hl])]
    | w :: w' :: rest =>
        rw [hl] at hsorted hall
        have hlt := (List.pairwise_cons.mp hsorted).1 w' (by simp)
        rw [hall w (by simp), hall w' (by simp)] at hlt
        exact absurd hlt (by simp)
  · rintro ⟨r, hr⟩
    obtain ⟨hl, hva⟩ := sole_eq_some.mp hr
    apply BitVec.eq_of_getLsbD_eq
    intro i hi
    rw [v.ok.bits i hi, getLsbD_bit hi, v.slot hi, Option.isSome_map]
    cases hvis : visibleAt log tid (byteAddr va i) with
    | none =>
        have hne : i ≠ firstByte va := by
          rintro rfl
          rw [byteAddr_self rfl] at hvis
          have hmem : r ∈ visibleIn log tid va := by simp [hl]
          rw [← hva, (mem_visibleIn.mp hmem).1] at hvis
          simp at hvis
        simp [hne]
    | some w =>
        have hw := (visibleAt_eq_some hvis).2.2.2
        have hmem : w ∈ visibleIn log tid va :=
          mem_visibleIn.mpr ⟨hw.symm ▸ hvis, hw ▸ byteAddr_quadword va hi⟩
        rw [hl, List.mem_singleton] at hmem
        subst hmem
        rw [hva] at hw
        have : i = firstByte va := by rw [hw, byteAddr_firstByte va hi]
        simp [this]

end QuadView

/-! ## What `add_store_deps` selects -/

/-- The visible stores of the load's quadword that pass the overlap test. -/
def candidates (log : List Fetched) (tid : ℤ) (t : TraceUop) : List Fetched :=
  (visibleIn log tid t.vaddr).filter fun r =>
    byteOverlap r.trace.vaddr r.trace.memSize t.vaddr t.memSize

/-- The store that `add_store_deps` returns. -/
def picked (log : List Fetched) (tid : ℤ) (t : TraceUop) : Option Fetched :=
  match sole log tid t.vaddr with
  | some r => some r
  | none => latestOf (candidates log tid t) none 0

/-- The stores that `add_store_deps` makes sources. -/
def selected (k : DepKnobs) (log : List Fetched) (tid : ℤ) (t : TraceUop) : List Fetched :=
  match sole log tid t.vaddr with
  | some r => [r]
  | none =>
      if k.memOooStores then candidates log tid t
      else (latestOf (candidates log tid t) none 0).toList

/-- The store dependences of an access are the uops of those selected. -/
theorem QuadView.storeDeps {heap : UopHeap} {log : List Fetched} {tid : ℤ} {t : TraceUop}
    {e : MemMapEntry} (k : DepKnobs) (v : QuadView heap log tid t.vaddr e) :
    DepCore.storeDeps k heap t.vaddr t.memSize e =
      some ((selected k log tid t).map (·.uop), (picked log tid t).map (·.uop)) := by
  unfold DepCore.storeDeps selected picked
  cases hsole : sole log tid t.vaddr with
  | some r =>
      obtain ⟨hl, hva⟩ := sole_eq_some.mp hsole
      have hmem : r ∈ visibleIn log tid t.vaddr := by simp [hl]
      have hslot : e.uop (firstByte t.vaddr) = some r.uop := by
        rw [v.slots _ rfl, ← hva, (mem_visibleIn.mp hmem).1]
        rfl
      rw [if_pos (v.storeMask.mpr ⟨r, hsole⟩)]
      simp [hslot, (v.heap r hmem).2.1, hva]
  | none =>
      have hmask : ¬ e.storeMask = 1#8 <<< firstByte t.vaddr := by
        intro h
        obtain ⟨r, hr⟩ := v.storeMask.mp h
        rw [hsole] at hr
        simp at hr
      have hwalk := latestStore_map (candidates log tid t)
        (fun r hr => (v.heap r (List.mem_filter.mp hr).1).1) none 0
      rw [if_neg hmask]
      simp only [v.overlapping]
      change some (if k.memOooStores = true then (candidates log tid t).map _ else
        (DepCore.latestStore heap ((candidates log tid t).map _) none 0).toList,
        DepCore.latestStore heap ((candidates log tid t).map _) none 0) = _
      rw [Option.map_none] at hwalk
      rw [hwalk]
      cases k.memOooStores with
      | true => rfl
      | false => cases latestOf (candidates log tid t) none 0 <;> rfl

/-- The state in which the memory dependences of a fetched uop are mapped. -/
def fetchedState (k : DepKnobs) (x : Logged) (tid : ℕ) (t : TraceUop) : DepCore :=
  mapped k (x.core.newUop tid t).2 (x.core.newUop tid t).1

/-- In that state the older uops are as they were. -/
theorem UopBooks.fetched {k : DepKnobs} {x : Logged} (h : UopBooks x) (tid : ℕ) (t : TraceUop) :
    (∀ r ∈ live x.log, fixedPart ((fetchedState k x tid t).heap r.uop) = r.fixed) ∧
      fixedPart ((fetchedState k x tid t).heap (x.core.newUop tid t).1) =
        (Logged.entry k x tid t).fixed ∧
      ∀ r ∈ live x.log, r.uop ≠ (x.core.newUop tid t).1 := by
  have hb := h.newUop (k := k) tid t
  have hlive : live (x.log ++ [Logged.entry k x tid t]) =
      live x.log ++ [Logged.entry k x tid t] := by
    rw [live_append]
    rfl
  have hmapped := (mapped_keeps k (x.core.newUop tid t).2 (x.core.newUop tid t).1).heap
  refine ⟨fun r hr => ?_, ?_, fun r hr he => ?_⟩
  · exact (hmapped r.uop).trans (hb.fixed r (by rw [hlive]; simp [hr]))
  · exact (hmapped _).trans (hb.fixed (Logged.entry k x tid t) (by rw [hlive]; simp))
  · have hnd := hb.nodup_uops
    rw [hlive, List.map_append, List.nodup_append] at hnd
    exact hnd.2.2 r.uop (List.mem_map.mpr ⟨r, hr, rfl⟩) _ (by simp [Logged.entry]) he

/-- The entry of the load's quadword shows the visible stores. -/
theorem HashBooks.view {k : DepKnobs} {x : Logged} (hb : UopBooks x) (h : HashBooks x) (tid : ℕ)
    (t : TraceUop) {d : MapData} {e : MemMapEntry}
    (hd : (fetchedState k x tid t).coreMapData tid = some d)
    (he : d.oracleMemHash (memMapKey t.vaddr false) = some e) :
    QuadView (fetchedState k x tid t).heap x.log tid t.vaddr e := by
  have hmap : (x.core.newUop tid t).2.coreMapData = x.core.coreMapData :=
    (newUop_spec hb.owns tid t).choose_spec.2.2.2.2.2.1
  have hslots : slotAt (fetchedState k x tid t) = slotAt x.core :=
    (slotAt_mapped k _ _).trans (slotAt_congr hmap)
  have hok : EntriesOk (fetchedState k x tid t) := EntriesOk.mapped k _ (h.entries.congr hmap)
  refine ⟨hok _ d _ e hd he, fun a ha => ?_, fun r hr => ?_⟩
  · rw [← h.slots, ← hslots, slotAt_of_entry hd he ha]
    rfl
  · have hlive := (visibleAt_eq_some (mem_visibleIn.mp hr).1).1
    have hfixed := (hb.fetched (k := k) tid t).1 r hlive
    exact ⟨congrArg CoreUop.uopNum hfixed, congrArg CoreUop.vaddr hfixed,
      congrArg CoreUop.memSize hfixed⟩

/-- Without an entry no store of the load's quadword is visible. -/
theorem HashBooks.view_none {k : DepKnobs} {x : Logged} (hb : UopBooks x) (h : HashBooks x)
    (tid : ℕ) (t : TraceUop) {d : MapData}
    (hd : (fetchedState k x tid t).coreMapData tid = some d)
    (he : d.oracleMemHash (memMapKey t.vaddr false) = none) :
    visibleIn x.log tid t.vaddr = [] := by
  have hmap : (x.core.newUop tid t).2.coreMapData = x.core.coreMapData :=
    (newUop_spec hb.owns tid t).choose_spec.2.2.2.2.2.1
  have hslots : slotAt (fetchedState k x tid t) = slotAt x.core :=
    (slotAt_mapped k _ _).trans (slotAt_congr hmap)
  rw [List.eq_nil_iff_forall_not_mem]
  intro r hr
  obtain ⟨hvis, hq⟩ := mem_visibleIn.mp hr
  have hslot := h.slots tid r.trace.vaddr
  rw [← hslots, slotAt_of_entry hd he hq, hvis] at hslot
  simp at hslot

/-- What `add_store_deps` returns and which sources it adds. -/
theorem addStoreDeps_spec {k : DepKnobs} {x : Logged} (hb : UopBooks x) (h : HashBooks x) {tid : ℕ}
    {t : TraceUop} {found : Option UopPtr} {s' : DepCore}
    (hs : (fetchedState k x tid t).addStoreDeps k (x.core.newUop tid t).1 = some (found, s')) :
    found = (picked x.log tid t).map (·.uop) ∧
      ∃ mem, Added (fetchedState k x tid t).heap
          ((fetchedState k x tid t).heap (x.core.newUop tid t).1).mapSrcInfo mem
          ((selected k x.log tid t).map (·.uop)) ∧
        (s'.heap (x.core.newUop tid t).1).mapSrcInfo =
          ((fetchedState k x tid t).heap (x.core.newUop tid t).1).mapSrcInfo ++ mem := by
  have hfixed := (hb.fetched (k := k) tid t).2.1
  set p := (x.core.newUop tid t).1
  set s := fetchedState k x tid t
  have htid : (s.heap p).threadId = tid := congrArg CoreUop.threadId hfixed
  have hva : (s.heap p).vaddr = t.vaddr := congrArg CoreUop.vaddr hfixed
  have hsize : (s.heap p).memSize = t.memSize := congrArg CoreUop.memSize hfixed
  have hoff : (s.heap p).offPath = false := congrArg CoreUop.offPath hfixed
  unfold DepCore.addStoreDeps at hs
  dsimp only at hs
  rw [htid, hva, hsize, hoff] at hs
  split at hs
  · simp at hs
  · next d hd =>
      split at hs
      · next he =>
          have hnil := h.view_none hb tid t hd he
          have hsole : sole x.log tid t.vaddr = none := by simp [sole, hnil]
          have hcand : candidates x.log tid t = [] := by simp [candidates, hnil]
          obtain ⟨hf, hs'⟩ := Prod.mk.inj (Option.some.inj hs)
          rw [← hf, ← hs']
          refine ⟨by simp [picked, hsole, hcand, latestOf], [], ?_, by simp⟩
          simp only [selected, hsole, hcand, latestOf]
          exact ⟨by simp, by simp⟩
      · next e he =>
          rw [(h.view hb tid t hd he).storeDeps k] at hs
          obtain ⟨heap, hheap, hpair⟩ := Option.map_eq_some_iff.mp hs
          obtain ⟨mem, hadd, rfl⟩ := foldlM_addSrcFromUop _ hheap
          cases hpair
          exact ⟨rfl, mem, hadd, by simp⟩

/-! ## Exactness -/

/-- The youngest store of the thread that is not deleted and shares a byte with the load. -/
def youngest (log : List Fetched) (tid : ℕ) (t : TraceUop) : Option Fetched :=
  lastMatch (fun r => r.tid == tid && r.trace.memType.hashedStore && !r.retired &&
    decide (sharesByte r.trace.vaddr r.trace.memSize t.vaddr t.memSize)) log

/-- The load depends on the youngest such store, and the result names it. -/
def DependsOnYoungest (log : List Fetched) (tid : ℕ) (t : TraceUop) (srcs : List SrcInfo)
    (found : Option UopPtr) : Prop :=
  found = (youngest log tid t).map (·.uop) ∧
    ∀ y, youngest log tid t = some y → ∃ info ∈ srcs, info.uop = y.uop ∧ info.uopNum = y.num

/-- The store hash and the walk of `add_store_deps` lead to the youngest store: it starts in
the quadword of the load and no later store with its start has been mapped; and either it is
alone in the quadword and starts with the load, or its number is not zero and no overlapping
store at a higher address exceeds what an `unsigned int` keeps of its number.  Without such a
store, no store of the quadword is alone with the start of the load. -/
def Detected (log : List Fetched) (tid : ℕ) (t : TraceUop) : Prop :=
  match youngest log tid t with
  | none => sole log tid t.vaddr = none
  | some y =>
      y ∈ visibleIn log tid t.vaddr ∧
        (sole log tid t.vaddr = some y ∨
          (y.num ≠ 0 ∧ ∀ w ∈ visibleIn log tid t.vaddr,
            sharesByte w.trace.vaddr w.trace.memSize t.vaddr t.memSize →
              y.trace.vaddr < w.trace.vaddr → w.num ≤ y.num % 2 ^ 32))

/-- No source of the load carries the number of a store now, unless one names the store. -/
def Recorded (heap : UopHeap) (srcs : List SrcInfo) (y : Fetched) : Prop :=
  (∀ info ∈ srcs, (heap info.uop).uopNum ≠ y.num) ∨
    ∃ info ∈ srcs, info.uop = y.uop ∧ info.uopNum = y.num

section Exact

variable {x : Logged} {tid : ℕ} {t : TraceUop}

/-- The accesses of the stores of a thread and of a load are proper ones. -/
structure ProperAccesses (log : List Fetched) (t : TraceUop) : Prop where
  stores : ∀ r ∈ log, r.trace.memType.hashedStore = true → AccessOk r.trace
  load : AccessOk t

/-- Between proper accesses a candidate is a visible store that shares a byte. -/
theorem mem_storeCandidates (ha : ProperAccesses x.log t) {w : Fetched} :
    w ∈ candidates x.log tid t ↔ w ∈ visibleIn x.log tid t.vaddr ∧
      sharesByte w.trace.vaddr w.trace.memSize t.vaddr t.memSize := by
  unfold candidates
  rw [List.mem_filter]
  refine and_congr_right fun hw => ?_
  obtain ⟨hlive, -, hst, -⟩ := visibleAt_eq_some (mem_visibleIn.mp hw).1
  exact byteOverlap_iff (ha.stores w (mem_live.mp hlive).1 hst) ha.load

/-- The youngest store is a live one of the thread that shares a byte. -/
theorem youngest_spec {log : List Fetched} {y : Fetched} (hy : youngest log tid t = some y) :
    y ∈ live log ∧ y.tid = tid ∧ y.trace.memType.hashedStore = true ∧
      sharesByte y.trace.vaddr y.trace.memSize t.vaddr t.memSize := by
  obtain ⟨hmem, hp⟩ := lastMatch_mem hy
  simp only [Bool.and_eq_true, beq_iff_eq, Bool.not_eq_true', decide_eq_true_eq] at hp
  exact ⟨mem_live.mpr ⟨hmem, hp.1.2⟩, hp.1.1.1, hp.1.1.2, hp.2⟩

/-- A candidate is a store that the definition of the youngest one ranges over. -/
theorem candidate_matches (ha : ProperAccesses x.log t) {w : Fetched}
    (hw : w ∈ candidates x.log tid t) :
    w ∈ x.log ∧ w.tid = tid ∧ (w.tid == tid && w.trace.memType.hashedStore && !w.retired &&
      decide (sharesByte w.trace.vaddr w.trace.memSize t.vaddr t.memSize)) = true := by
  obtain ⟨hvis, hsh⟩ := (mem_storeCandidates ha).mp hw
  obtain ⟨hlive, htid, hst, -⟩ := visibleAt_eq_some (mem_visibleIn.mp hvis).1
  have htid' : w.tid = tid := by exact_mod_cast htid
  exact ⟨(mem_live.mp hlive).1, htid', by simp [htid', hst, (mem_live.mp hlive).2, hsh]⟩

/-- Every candidate is the youngest store or older. -/
theorem candidate_older (hb : UopBooks x) (ha : ProperAccesses x.log t) {y w : Fetched}
    (hy : youngest x.log tid t = some y) (hw : w ∈ candidates x.log tid t) :
    w = y ∨ w.num < y.num := by
  obtain ⟨hmem, htid, hmatch⟩ := candidate_matches ha hw
  obtain ⟨pre, post, hlog, -, hpost⟩ := lastMatch_eq_some.mp hy
  have hord := hb.ordered
  rw [hlog] at hmem hord
  rcases List.mem_append.mp hmem with hpre | hrest
  · have hlt := (List.pairwise_append.mp hord).2.2 w hpre y List.mem_cons_self
    exact .inr (hlt (htid.trans (youngest_spec hy).2.1.symm))
  · rcases List.mem_cons.mp hrest with rfl | hpost'
    · exact .inl rfl
    · rw [hpost w hpost'] at hmatch
      simp at hmatch

variable (x tid t) in
/-- The candidates stand in the order of their addresses. -/
theorem candidates_sorted :
    (candidates x.log tid t).Pairwise fun a b => a.trace.vaddr < b.trace.vaddr :=
  (visibleIn_sorted x.log tid t.vaddr).filter _

/-- The store that is picked is the youngest one exactly when it is detected. -/
theorem picked_eq_youngest_iff (hb : UopBooks x) (ha : ProperAccesses x.log t) :
    picked x.log tid t = youngest x.log tid t ↔ Detected x.log tid t := by
  unfold Detected
  cases hy : youngest x.log tid t with
  | none =>
      constructor
      · intro h
        unfold picked at h
        cases hsole : sole x.log tid t.vaddr with
        | none => rfl
        | some r => simp [hsole] at h
      · intro hsole
        have hsole : sole x.log tid t.vaddr = none := hsole
        have hnil : candidates x.log tid t = [] := by
          rw [List.eq_nil_iff_forall_not_mem]
          intro w hw
          obtain ⟨hmem, -, hmatch⟩ := candidate_matches ha hw
          rw [lastMatch_eq_none.mp hy w hmem] at hmatch
          simp at hmatch
        simp [picked, hsole, hnil, latestOf]
  | some y =>
      obtain ⟨-, -, -, hshare⟩ := youngest_spec hy
      constructor
      · intro h
        unfold picked at h
        cases hsole : sole x.log tid t.vaddr with
        | some r =>
            rw [hsole] at h
            obtain rfl := Option.some.inj h
            exact ⟨by simp [(sole_eq_some.mp hsole).1], .inl rfl⟩
        | none =>
            rw [hsole] at h
            obtain ⟨hn, -⟩ | ⟨l₁, l₂, hsplit, hnum, hle⟩ := latestOf_some h
            · simp at hn
            · have hmem : y ∈ candidates x.log tid t := by simp [hsplit]
              refine ⟨((mem_storeCandidates ha).mp hmem).1, .inr ⟨hnum, ?_⟩⟩
              intro w hw hsh hlt
              have hwc := (mem_storeCandidates ha).mpr ⟨hw, hsh⟩
              have hsorted := candidates_sorted x tid t
              rw [hsplit] at hwc hsorted
              rcases List.mem_append.mp hwc with h₁ | h₂
              · have := (List.pairwise_append.mp hsorted).2.2 w h₁ y List.mem_cons_self
                bv_omega
              · rcases List.mem_cons.mp h₂ with rfl | h₂
                · bv_omega
                · exact hle w h₂
      · rintro ⟨hvis, hcase⟩
        unfold picked
        cases hsole : sole x.log tid t.vaddr with
        | some r =>
            rw [(sole_eq_some.mp hsole).1, List.mem_singleton] at hvis
            rw [hvis]
        | none =>
            rcases hcase with h | ⟨hnum, hle⟩
            · rw [hsole] at h
              simp at h
            · obtain ⟨l₁, l₂, hsplit⟩ :=
                List.append_of_mem ((mem_storeCandidates ha).mpr ⟨hvis, hshare⟩)
              have hsorted := candidates_sorted x tid t
              rw [hsplit] at hsorted
              have hbefore : ∀ w ∈ l₁, w.num < y.num := by
                intro w hw
                have hlt := (List.pairwise_append.mp hsorted).2.2 w hw y List.mem_cons_self
                rcases candidate_older hb ha hy (w := w) (by simp [hsplit, hw]) with rfl | h
                · bv_omega
                · exact h
              have hafter : ∀ w ∈ l₂, w.num ≤ y.num % 2 ^ 32 := by
                intro w hw
                have hlt := (List.pairwise_cons.mp (List.pairwise_append.mp hsorted).2.1).1 w hw
                have hwc := (mem_storeCandidates ha).mp
                  (show w ∈ candidates x.log tid t by simp [hsplit, hw])
                exact hle w hwc.1 hwc.2 hlt
              simp only
              rw [hsplit, latestOf_take (Nat.pos_of_ne_zero hnum) hbefore,
                latestOf_stay hafter]

/-- The objects of the visible stores are told apart by their numbers. -/
theorem UopBooks.num_unique {x : Logged} (h : UopBooks x) {r r' : Fetched} (hr : r ∈ x.log)
    (hr' : r' ∈ x.log) (htid : r.tid = r'.tid) (hnum : r.num = r'.num) : r = r' := by
  obtain ⟨i, hi, rfl⟩ := List.mem_iff_getElem.mp hr
  obtain ⟨j, hj, rfl⟩ := List.mem_iff_getElem.mp hr'
  have hord := List.pairwise_iff_getElem.mp h.ordered
  rcases lt_trichotomy i j with hij | rfl | hij
  · have := hord i j hi hj hij htid
    omega
  · rfl
  · have := hord j i hj hi hij htid.symm
    omega

/-- A store that is picked is among the stores that are made sources. -/
theorem picked_selected {k : DepKnobs} {log : List Fetched} {tid : ℤ} {t : TraceUop} {y : Fetched}
    (h : picked log tid t = some y) : y ∈ selected k log tid t := by
  unfold picked at h
  unfold selected
  cases hsole : sole log tid t.vaddr with
  | some r =>
      rw [hsole] at h
      obtain rfl := Option.some.inj h
      exact List.mem_singleton_self _
  | none =>
      rw [hsole] at h
      obtain ⟨hn, -⟩ | ⟨l₁, l₂, hsplit, -⟩ := latestOf_some h
      · simp at hn
      · have h' : latestOf (candidates log tid t) none 0 = some y := h
        cases k.memOooStores with
        | true => simp [hsplit]
        | false => simp [h']

/-- The stores that are made sources are visible ones. -/
theorem selected_visible {k : DepKnobs} {log : List Fetched} {tid : ℤ} {t : TraceUop}
    {w : Fetched} (h : w ∈ selected k log tid t) : w ∈ visibleIn log tid t.vaddr := by
  unfold selected at h
  cases hsole : sole log tid t.vaddr with
  | some r =>
      rw [hsole] at h
      obtain rfl := List.mem_singleton.mp h
      simp [(sole_eq_some.mp hsole).1]
  | none =>
      rw [hsole] at h
      have hcand : w ∈ candidates log tid t := by
        cases hk : k.memOooStores with
        | true => simpa [hk] using h
        | false =>
            simp only [hk, Bool.false_eq_true, if_false, Option.mem_toList] at h
            obtain ⟨hn, -⟩ | ⟨l₁, l₂, hsplit, -⟩ := latestOf_some h
            · simp at hn
            · simp [hsplit]
      exact (List.mem_filter.mp hcand).1

/-- A selected store becomes a source unless a source the load has carries its number. -/
theorem named_iff_recorded (hb : UopBooks x) {k : DepKnobs} {y : Fetched} {mem : List SrcInfo}
    (hsel : y ∈ selected k x.log tid t)
    (hadd : Added (fetchedState k x tid t).heap
      ((fetchedState k x tid t).heap (x.core.newUop tid t).1).mapSrcInfo mem
      ((selected k x.log tid t).map (·.uop))) :
    (∃ info ∈ ((fetchedState k x tid t).heap (x.core.newUop tid t).1).mapSrcInfo ++ mem,
        info.uop = y.uop ∧ info.uopNum = y.num) ↔
      Recorded (fetchedState k x tid t).heap
        ((fetchedState k x tid t).heap (x.core.newUop tid t).1).mapSrcInfo y := by
  have hview : ∀ w ∈ selected k x.log tid t, w ∈ live x.log ∧ w.tid = tid ∧
      ((fetchedState k x tid t).heap w.uop).uopNum = w.num := by
    intro w hw
    obtain ⟨hlive, htid, -⟩ := visibleAt_eq_some (mem_visibleIn.mp (selected_visible hw)).1
    exact ⟨hlive, by exact_mod_cast htid,
      congrArg CoreUop.uopNum ((hb.fetched (k := k) tid t).1 w hlive)⟩
  have hynum := (hview y hsel).2.2
  constructor
  · rintro ⟨info, hinfo, huop, hnum⟩
    rcases List.mem_append.mp hinfo with hold | hnew
    · exact .inr ⟨info, hold, huop, hnum⟩
    · obtain ⟨q, hq, rfl, hno⟩ := hadd.new info hnew
      left
      intro i hi
      rw [← hnum]
      exact hno i hi
  · rintro (hno | ⟨info, hinfo, hnamed⟩)
    · obtain ⟨info, hinfo, hnum⟩ := hadd.there y.uop (List.mem_map.mpr ⟨y, hsel, rfl⟩)
        (by rw [hynum]; exact hno)
      obtain ⟨q, hq, rfl, -⟩ := hadd.new info hinfo
      obtain ⟨w, hw, rfl⟩ := List.mem_map.mp hq
      obtain ⟨hlive, htid, hwnum⟩ := hview w hw
      obtain ⟨hylive, hytid, -⟩ := hview y hsel
      have hwy : w = y := by
        refine hb.num_unique (mem_live.mp hlive).1 (mem_live.mp hylive).1
          (htid.trans hytid.symm) ?_
        rw [← hwnum, ← hynum]
        exact hnum
      subst hwy
      exact ⟨_, List.mem_append_right _ hinfo, rfl, hwnum⟩
    · exact ⟨info, List.mem_append_left _ hinfo, hnamed⟩

end Exact

/-! ## Room for the sources -/

/-- The stores whose number no source of the uop carries. -/
def freshStores (heap : UopHeap) (p : UopPtr) (stores : List UopPtr) : List UopPtr :=
  stores.filter fun q => !alreadySource heap (heap p) q

/-- The new sources fit into the source array of the uop. -/
def SourcesFit (heap : UopHeap) (p : UopPtr) (stores : List UopPtr) : Prop :=
  freshStores heap p stores = [] ∨
    (heap p).mapSrcInfo.length + (freshStores heap p stores).length ≤ maxUopSrcDeps

/-- Adding stores with different numbers stops exactly when they do not fit. -/
theorem foldlM_addSrcFromUop_isSome {p : UopPtr} (stores : List UopPtr) {heap : UopHeap}
    (hnd : stores.Pairwise fun a b => (heap a).uopNum ≠ (heap b).uopNum) :
    (stores.foldlM (addSrcFromUop .memDataDep p) heap).isSome ↔ SourcesFit heap p stores := by
  induction stores generalizing heap with
  | nil => simp [SourcesFit, freshStores]
  | cons q stores ih =>
      obtain ⟨hq, hnd⟩ := List.pairwise_cons.mp hnd
      rw [List.foldlM_cons]
      unfold addSrcFromUop
      dsimp only
      by_cases hthere : alreadySource heap (heap p) q = true
      · rw [if_pos hthere]
        have hsame : freshStores heap p (q :: stores) = freshStores heap p stores := by
          simp [freshStores, hthere]
        show (stores.foldlM (addSrcFromUop .memDataDep p) heap).isSome ↔ _
        rw [ih hnd, SourcesFit, SourcesFit, hsame]
      · rw [if_neg hthere]
        have hcons : freshStores heap p (q :: stores) = q :: freshStores heap p stores := by
          simp [freshStores, hthere]
        by_cases hfull : maxUopSrcDeps ≤ (heap p).mapSrcInfo.length
        · rw [if_pos hfull]
          have : ¬ SourcesFit heap p (q :: stores) := by
            rw [SourcesFit, hcons]
            rintro (h | h)
            · simp at h
            · simp only [List.length_cons] at h
              omega
          simpa using this
        · rw [if_neg hfull]
          set heap₁ : UopHeap := Function.update heap p
            { heap p with
              mapSrcInfo := (heap p).mapSrcInfo ++ [⟨.memDataDep, q, (heap q).uopNum⟩] }
            with hheap₁
          have hnum : ∀ c, (heap₁ c).uopNum = (heap c).uopNum := by
            intro c
            by_cases hc : c = p
            · subst hc
              simp [hheap₁]
            · simp [hheap₁, hc]
          -- the source just added carries the number of no later store
          have hfresh : freshStores heap₁ p stores = freshStores heap p stores := by
            refine List.filter_congr fun c hc => ?_
            have hself : heap₁ p = { heap p with
                mapSrcInfo := (heap p).mapSrcInfo ++ [⟨.memDataDep, q, (heap q).uopNum⟩] } := by
              simp [hheap₁]
            simp [alreadySource, hself, hnum, hq c hc]
          have hnd₁ : stores.Pairwise fun a b => (heap₁ a).uopNum ≠ (heap₁ b).uopNum := by
            simpa [hnum] using hnd
          have hlen : (heap₁ p).mapSrcInfo.length = (heap p).mapSrcInfo.length + 1 := by
            simp [hheap₁]
          show (stores.foldlM (addSrcFromUop .memDataDep p) heap₁).isSome ↔ _
          rw [ih hnd₁, SourcesFit, SourcesFit, hfresh, hlen, hcons]
          simp only [List.length_cons, reduceCtorEq, false_or]
          constructor
          · rintro (h | h)
            · rw [h]
              simp only [List.length_nil]
              omega
            · omega
          · intro h
            right
            omega

/-- Visible stores of one quadword have different numbers. -/
theorem selected_pairwise {k : DepKnobs} {x : Logged} (hb : UopBooks x) (tid : ℕ) (t : TraceUop) :
    ((selected k x.log tid t).map (·.uop)).Pairwise fun a b =>
      ((fetchedState k x tid t).heap a).uopNum ≠ ((fetchedState k x tid t).heap b).uopNum := by
  rw [List.pairwise_map]
  have hsub : (selected k x.log tid t).Pairwise fun a b => a.trace.vaddr < b.trace.vaddr := by
    unfold selected
    cases sole x.log tid t.vaddr with
    | some r => exact List.pairwise_singleton _ r
    | none =>
        cases k.memOooStores with
        | true => exact (visibleIn_sorted x.log tid t.vaddr).filter _
        | false => cases latestOf (candidates x.log tid t) none 0 <;> simp
  refine hsub.imp_of_mem fun {a b} ha hb' hlt hnum => ?_
  obtain ⟨hla, hta, -⟩ := visibleAt_eq_some (mem_visibleIn.mp (selected_visible ha)).1
  obtain ⟨hlb, htb, -⟩ := visibleAt_eq_some (mem_visibleIn.mp (selected_visible hb')).1
  have hna := congrArg CoreUop.uopNum ((hb.fetched (k := k) tid t).1 a hla)
  have hnb := congrArg CoreUop.uopNum ((hb.fetched (k := k) tid t).1 b hlb)
  have heq : a = b := by
    refine hb.num_unique (mem_live.mp hla).1 (mem_live.mp hlb).1
      (by exact_mod_cast hta.trans htb.symm) ?_
    exact hna.symm.trans (hnum.trans hnb)
  rw [heq] at hlt
  bv_omega

/-- `add_store_deps` ends without a failed assertion exactly when the sources fit. -/
theorem addStoreDeps_isSome {k : DepKnobs} {x : Logged} (hb : UopBooks x) (h : HashBooks x)
    (tid : ℕ) (t : TraceUop) :
    ((fetchedState k x tid t).addStoreDeps k (x.core.newUop tid t).1).isSome ↔
      SourcesFit (fetchedState k x tid t).heap (x.core.newUop tid t).1
        ((selected k x.log tid t).map (·.uop)) := by
  have hfixed := (hb.fetched (k := k) tid t).2.1
  have hpair := selected_pairwise (k := k) hb tid t
  set p := (x.core.newUop tid t).1
  have htid : ((fetchedState k x tid t).heap p).threadId = tid := congrArg CoreUop.threadId hfixed
  have hva : ((fetchedState k x tid t).heap p).vaddr = t.vaddr := congrArg CoreUop.vaddr hfixed
  have hsize : ((fetchedState k x tid t).heap p).memSize = t.memSize :=
    congrArg CoreUop.memSize hfixed
  have hoff : ((fetchedState k x tid t).heap p).offPath = false :=
    congrArg CoreUop.offPath hfixed
  obtain ⟨d, hd⟩ : ∃ d, (fetchedState k x tid t).coreMapData tid = some d := by
    have hthread : ((x.core.newUop tid t).2.heap (x.core.newUop tid t).1).threadId = tid :=
      ((mapped_keeps k _ _).threadId _).symm.trans htid
    rw [fetchedState, mapped, DepCore.setMapData_coreMapData, hthread, Function.update_self]
    exact ⟨_, rfl⟩
  unfold DepCore.addStoreDeps
  dsimp only
  rw [htid, hva, hsize, hoff, hd]
  cases he : d.oracleMemHash (memMapKey t.vaddr false) with
  | none =>
      have hnil := h.view_none hb tid t hd he
      have hsel : selected k x.log tid t = [] := by
        simp [selected, sole, candidates, hnil, latestOf]
      simp [he, hsel, SourcesFit, freshStores]
  | some e =>
      simp only [he, (h.view hb tid t hd he).storeDeps k, Option.isSome_map]
      exact foldlM_addSrcFromUop_isSome _ hpair

/-- `add_store_deps` ends, and the load depends on the youngest older store of its thread
that is not deleted and shares a byte with it, or finds none. -/
def StoreDependenceExact (k : DepKnobs) (x : Logged) (tid : ℕ) (t : TraceUop) (s : DepCore) :
    Prop :=
  ∃ found s', s.addStoreDeps k (x.core.newUop tid t).1 = some (found, s') ∧
    DependsOnYoungest x.log tid t (s'.heap (x.core.newUop tid t).1).mapSrcInfo found

/-- In every run, at every load: the dependence that `add_store_deps` records is the exact
one if and only if the youngest overlapping store is detected, no source that the load
already has carries its number, and the sources fit. -/
theorem store_dependence_exact_iff {k : DepKnobs} (hdep : k.ignoreDep = false)
    (hobey : k.memObeyStoreDep = true) {acts : List DepAct} {x : Logged}
    (hrun : Logged.start.run k acts = some x) {tid : ℕ} {t : TraceUop}
    (ha : ProperAccesses x.log t) {s : DepCore}
    (hmap : (x.core.newUop tid t).2.mapUop k (x.core.newUop tid t).1 = some s) :
    StoreDependenceExact k x tid t s ↔
      Detected x.log tid t ∧
        (∀ y, youngest x.log tid t = some y →
          Recorded s.heap (s.heap (x.core.newUop tid t).1).mapSrcInfo y) ∧
        SourcesFit s.heap (x.core.newUop tid t).1 ((selected k x.log tid t).map (·.uop)) := by
  have hb := UopBooks.run hrun
  have hh := HashBooks.run hdep hobey hrun
  obtain rfl := mapUop_eq hmap
  change StoreDependenceExact k x tid t (fetchedState k x tid t) ↔ _ ∧
    (∀ y, _ → Recorded (fetchedState k x tid t).heap _ y) ∧
      SourcesFit (fetchedState k x tid t).heap _ _
  have hlive : ∀ {r}, picked x.log tid t = some r → r ∈ live x.log := fun hr =>
    (visibleAt_eq_some (mem_visibleIn.mp (selected_visible (picked_selected (k := k) hr))).1).1
  -- equal pointers mean equal uops
  have huop : (picked x.log tid t).map (·.uop) = (youngest x.log tid t).map (·.uop) ↔
      picked x.log tid t = youngest x.log tid t := by
    refine ⟨fun he => ?_, fun he => he ▸ rfl⟩
    cases hp : picked x.log tid t with
    | none => simpa [hp, eq_comm] using he
    | some r =>
        cases hy : youngest x.log tid t with
        | none => simp [hp, hy] at he
        | some y =>
            rw [hp, hy] at he
            exact congrArg some
              (hb.live_unique (hlive hp) (youngest_spec hy).1 (Option.some.inj he))
  constructor
  · rintro ⟨found, s', hs, hf, hnamed⟩
    obtain ⟨rfl, mem, hadd, hsrcs⟩ := addStoreDeps_spec hb hh hs
    have hpick := huop.mp hf
    refine ⟨(picked_eq_youngest_iff hb ha).mp hpick, fun y hy => ?_, ?_⟩
    · have hsel : y ∈ selected k x.log tid t := picked_selected (hpick.trans hy)
      refine (named_iff_recorded hb hsel hadd).mp ?_
      rw [← hsrcs]
      exact hnamed y hy
    · exact (addStoreDeps_isSome hb hh tid t).mp (by rw [hs]; rfl)
  · rintro ⟨hdet, hrec, hfit⟩
    obtain ⟨⟨found, s'⟩, hs⟩ :=
      Option.isSome_iff_exists.mp ((addStoreDeps_isSome hb hh tid t).mpr hfit)
    obtain ⟨rfl, mem, hadd, hsrcs⟩ := addStoreDeps_spec hb hh hs
    have hpick := (picked_eq_youngest_iff hb ha).mpr hdet
    refine ⟨_, s', hs, huop.mpr hpick, fun y hy => ?_⟩
    have hsel : y ∈ selected k x.log tid t := picked_selected (hpick.trans hy)
    rw [hsrcs]
    exact (named_iff_recorded hb hsel hadd).mpr (hrec y hy)

/-- The default values of the knobs.
SRCLINE: core.param.def:87-93 -/
def defaultMapKnobs : DepKnobs :=
  { memObeyStoreDep := true, memOooStores := true, useNewOracle := false, ignoreDep := false }

/-- A memory uop of a trace. -/
def memTrace (memType : MemType) (va : Addr) (size : ℕ) : TraceUop :=
  { memType := memType, vaddr := va, memSize := size, bogus := false, srcs := [], dests := [],
    children := [], childSize := 0 }

/-- A load of the word stored before it depends on that store. -/
theorem store_dependence_exact_iff_same_word :
    ∃ x s, Logged.start.run defaultMapKnobs [.fetch 0 (memTrace .st 8 8)] = some x ∧
      (x.core.newUop 0 (memTrace .ld 8 4)).2.mapUop defaultMapKnobs
        (x.core.newUop 0 (memTrace .ld 8 4)).1 = some s ∧
      StoreDependenceExact defaultMapKnobs x 0 (memTrace .ld 8 4) s := by
  refine ⟨_, _, rfl, rfl, ?_⟩
  have hrun := Eq.refl (Logged.start.run defaultMapKnobs [.fetch 0 (memTrace .st 8 8)])
  refine (store_dependence_exact_iff rfl rfl hrun ⟨?_, .inl ⟨by decide, by decide⟩⟩ rfl).mpr
    ⟨?_, ?_, .inr (by decide)⟩
  · intro r hr _
    obtain rfl := List.mem_singleton.mp hr
    exact .inl ⟨by decide, by decide⟩
  · show _ ∧ (_ ∨ _)
    exact ⟨by decide, .inl (by decide)⟩
  · intro y _
    exact .inl fun info hinfo => nomatch hinfo

/-- A store of eight bytes at address `4` and a load of four bytes at address `8` share the
bytes `8` to `11`, but the load looks only at the stores of its own quadword. -/
theorem store_dependence_lost_across_quadwords :
    ∃ x s, Logged.start.run defaultMapKnobs [.fetch 0 (memTrace .st 4 8)] = some x ∧
      (x.core.newUop 0 (memTrace .ld 8 4)).2.mapUop defaultMapKnobs
        (x.core.newUop 0 (memTrace .ld 8 4)).1 = some s ∧
      ¬ StoreDependenceExact defaultMapKnobs x 0 (memTrace .ld 8 4) s := by
  refine ⟨_, _, rfl, rfl, ?_⟩
  rintro ⟨found, s', hs, hf, -⟩
  have hnone : found = none := congrArg Prod.fst (Option.some.inj hs).symm
  rw [hnone] at hf
  revert hf
  decide

end MacSim.Analysis
