import MacSim.Model.Mmu
import MacSim.Analysis.LruBooks
import Mathlib.Data.Finset.Card
import Mathlib.Data.Finset.Range
import Mathlib.Logic.Relation

/-!
# The books of the page table

`PagingMove` is what can happen to the page table, the frames, the TLB and the replacement unit,
without the queues of the MMU.  Three invariants of these moves: the bitmap and the counter of
free frames describe the page table (`FrameBooks`), the TLB has nothing that the page table does
not have (`Coherent`), and the replacement unit has the pages of the page table (`Resident`, as
long as nothing is evicted and all pages have pid `-1`).
-/

set_option autoImplicit false

namespace MacSim.Analysis

open MacSim.Model Relation

/-- A page is looked up: in the TLB, or in the page table. -/
inductive Look (k : MmuKnobs) (p : Paging) : Paging → Prop
  | hit {node : ℕ} {tlb : Tlb} (ht : LruTable.touch p.tlb node = some tlb) :
      Look k p { p with tlb := tlb }
  | walk {key : PageKey} {frame : ℕ} {tlb : Tlb} {unit : ReplacementUnit}
      (hkey : p.pageTable key = some frame) (ht : Mmu.fillTlb p.tlb key frame = some tlb)
      (hr : Mmu.touchPage k p.replacementUnit key.page = some unit) :
      Look k p { p with tlb := tlb, replacementUnit := unit }

/-- A page gets a frame: a free one, or the next one without swapping. -/
inductive Takes (k : MmuKnobs) (key : PageKey) (p : Paging) : Paging → Prop
  | free {frame : ℕ} {unit : ReplacementUnit} (hs : k.noPageSwap = false)
      (hkey : p.pageTable key = none) (hlt : frame < k.numFrames) (hfree : p.freeFrames frame)
      (hpos : 0 < p.freeFramesRemaining)
      (hr : p.replacementUnit.insert ⟨key.page, defaultPid⟩ () = some unit) :
      Takes k key p { p with
        pageTable := Function.update p.pageTable key (some frame)
        replacementUnit := unit
        freeFrames := Function.update p.freeFrames frame false
        freeFramesRemaining := p.freeFramesRemaining - 1
        frameToAllocate := frame }
  | next (hs : k.noPageSwap = true) (hkey : p.pageTable key = none) :
      Takes k key p { p with
        pageTable := Function.update p.pageTable key (some p.frameDimm)
        frameToAllocate := p.frameDimm
        frameDimm := p.frameDimm + 1 }

/-- What can happen to the page table and the tables that go with it. -/
inductive PagingMove (k : MmuKnobs) (p : Paging) : Paging → Prop
  | look {p' : Paging} (h : Look k p p') : PagingMove k p p'
  | evict {victim : PageKey} {frame : ℕ} {tlb : Tlb} {unit : ReplacementUnit}
      (hv : ReplacementUnit.getVictim p.replacementUnit = some (victim, unit))
      (hkey : p.pageTable victim = some frame) (ht : p.tlb.invalidate victim = some tlb)
      (hfull : p.freeFramesRemaining ≤ 0) :
      PagingMove k p { p with
        replacementUnit := unit
        pageTable := Function.update p.pageTable victim none
        tlb := tlb
        freeFrames := Function.update p.freeFrames frame true
        freeFramesRemaining := p.freeFramesRemaining + 1
        frameToAllocate := frame }
  | take {key : PageKey} {p' : Paging} (h : Takes k key p p') : PagingMove k p p'

variable {k : MmuKnobs} {p p' : Paging}

/-- Pages that are looked up stay where they are. -/
theorem Look.unchanged (h : Look k p p') :
    ∃ tlb unit, p' = { p with tlb := tlb, replacementUnit := unit } := by
  cases h with
  | hit ht => exact ⟨_, p.replacementUnit, rfl⟩
  | walk hkey ht hr => exact ⟨_, _, rfl⟩

/-- Looking pages up changes no more than the TLB and the replacement unit. -/
theorem looks_unchanged (h : ReflTransGen (Look k) p p') :
    ∃ tlb unit, p' = { p with tlb := tlb, replacementUnit := unit } := by
  induction h with
  | refl => exact ⟨p.tlb, p.replacementUnit, rfl⟩
  | tail _ hl ih =>
      obtain ⟨_, _, rfl⟩ := ih
      obtain ⟨tlb, unit, rfl⟩ := hl.unchanged
      exact ⟨tlb, unit, rfl⟩

/-- A page that takes a frame was not mapped and is mapped now. -/
theorem Takes.pageTable_eq {key : PageKey} (h : Takes k key p p') :
    p.pageTable key = none ∧
      ∃ frame, p'.pageTable = Function.update p.pageTable key (some frame) := by
  cases h with
  | free hs hkey hlt hfree hpos hr => exact ⟨hkey, _, rfl⟩
  | next hs hkey => exact ⟨hkey, _, rfl⟩

/-! ## Frames -/

/-- The number of free frames. -/
def freeCount (n : ℕ) (free : ℕ → Bool) : ℕ := ((Finset.range n).filter (free · = true)).card

/-- A freed frame is one more that is free. -/
theorem freeCount_free {n f : ℕ} {free : ℕ → Bool} (hf : f < n) (h : free f = false) :
    freeCount n (Function.update free f true) = freeCount n free + 1 := by
  have hset : (Finset.range n).filter (Function.update free f true · = true) =
      insert f ((Finset.range n).filter (free · = true)) := by
    ext g
    simp only [Finset.mem_filter, Finset.mem_range, Finset.mem_insert, Function.update_apply]
    grind
  rw [freeCount, hset, Finset.card_insert_of_notMem (by simp [h]), freeCount]

/-- A frame that is taken is one less that is free. -/
theorem freeCount_taken {n f : ℕ} {free : ℕ → Bool} (hf : f < n) (h : free f = true) :
    freeCount n (Function.update free f false) + 1 = freeCount n free := by
  have hback : freeCount n (Function.update (Function.update free f false) f true) =
      freeCount n (Function.update free f false) + 1 := freeCount_free hf (by simp)
  rw [Function.update_idem, ← h, Function.update_eq_self] at hback
  exact hback.symm

/-- Where frames are counted as free, one of them is. -/
theorem exists_free {n : ℕ} {free : ℕ → Bool} (h : 0 < freeCount n free) :
    ∃ f < n, free f = true := by
  obtain ⟨f, hf⟩ := Finset.card_pos.mp h
  simp only [Finset.mem_filter, Finset.mem_range] at hf
  exact ⟨f, hf⟩

/-- The bitmap and the counter say which frames are in use. -/
structure SwapBooks (n : ℕ) (p : Paging) : Prop where
  bound : ∀ key f, p.pageTable key = some f → f < n
  free : ∀ f < n, (p.freeFrames f = true ↔ ∀ key, p.pageTable key ≠ some f)
  remaining : p.freeFramesRemaining = freeCount n p.freeFrames
  hint : 0 < n → p.frameToAllocate < n

/-- Without swapping, frames are given out in order. -/
structure LinearBooks (p : Paging) : Prop where
  bound : ∀ key f, p.pageTable key = some f → f < p.frameDimm
  remaining : p.freeFramesRemaining = 2 ^ 63 - 1

/-- No frame is used twice, and the books on free frames are right. -/
structure FrameBooks (k : MmuKnobs) (p : Paging) : Prop where
  injective : ∀ key key' f, p.pageTable key = some f → p.pageTable key' = some f → key = key'
  swap : k.noPageSwap = false → SwapBooks k.numFrames p
  linear : k.noPageSwap = true → LinearBooks p

/-- At first the frames are in the books. -/
theorem FrameBooks.initial (k : MmuKnobs) : FrameBooks k (initializePaging k) where
  injective _ _ _ h := nomatch h
  swap hs :=
    { bound := fun _ _ h => nomatch h
      free := fun f _ => by simp [initializePaging]
      remaining := by simp [initializePaging, hs, freeCount]
      hint := fun h => h }
  linear hs :=
    { bound := fun _ _ h => nomatch h
      remaining := by simp [initializePaging, hs] }

/-- An eviction keeps the swap books. -/
theorem SwapBooks.evict {n frame : ℕ} {victim : PageKey} (h : SwapBooks n p)
    (hinj : ∀ key key' f, p.pageTable key = some f → p.pageTable key' = some f → key = key')
    (hkey : p.pageTable victim = some frame) (tlb : Tlb) (unit : ReplacementUnit) :
    SwapBooks n { p with
      replacementUnit := unit
      pageTable := Function.update p.pageTable victim none
      tlb := tlb
      freeFrames := Function.update p.freeFrames frame true
      freeFramesRemaining := p.freeFramesRemaining + 1
      frameToAllocate := frame } := by
  have hlt : frame < n := h.bound victim frame hkey
  refine ⟨fun key f hf => ?_, fun f hf => ?_, ?_, fun _ => hlt⟩
  · simp only [Function.update_apply] at hf
    split at hf
    · exact nomatch hf
    · exact h.bound key f hf
  · have hold := h.free f hf
    simp only [Function.update_apply]
    by_cases hff : f = frame
    · simp only [hff, if_true, true_iff]
      intro key hmap
      split at hmap
      · exact nomatch hmap
      · exact absurd (hinj key victim frame hmap hkey) ‹_›
    · rw [if_neg hff, hold]
      grind
  · have htaken : p.freeFrames frame = false := by
      rw [Bool.eq_false_iff]
      exact fun hfree => (h.free frame hlt).mp hfree victim hkey
    show p.freeFramesRemaining + 1 = _
    rw [h.remaining, freeCount_free hlt htaken]
    push_cast
    rfl

/-- A page that takes a free frame keeps the swap books. -/
theorem SwapBooks.take {n frame : ℕ} {key : PageKey} (h : SwapBooks n p)
    (hkey : p.pageTable key = none) (hlt : frame < n) (hfree : p.freeFrames frame)
    (unit : ReplacementUnit) :
    SwapBooks n { p with
      pageTable := Function.update p.pageTable key (some frame)
      replacementUnit := unit
      freeFrames := Function.update p.freeFrames frame false
      freeFramesRemaining := p.freeFramesRemaining - 1
      frameToAllocate := frame } := by
  refine ⟨fun key' f hf => ?_, fun f hf => ?_, ?_, fun _ => hlt⟩
  · simp only [Function.update_apply] at hf
    split at hf
    · exact Option.some.inj hf ▸ hlt
    · exact h.bound key' f hf
  · have hold := h.free f hf
    simp only [Function.update_apply]
    by_cases hff : f = frame
    · simp only [hff, if_true, Bool.false_eq_true, false_iff, not_forall, not_not]
      exact ⟨key, by simp⟩
    · rw [if_neg hff, hold]
      grind
  · have hcount := freeCount_taken hlt hfree
    show p.freeFramesRemaining - 1 = _
    rw [h.remaining, ← hcount]
    push_cast
    omega

/-- The books on frames are about neither the TLB nor the replacement unit. -/
theorem FrameBooks.withTables (h : FrameBooks k p) (tlb : Tlb) (unit : ReplacementUnit) :
    FrameBooks k { p with tlb := tlb, replacementUnit := unit } where
  injective := h.injective
  swap hs := ⟨(h.swap hs).bound, (h.swap hs).free, (h.swap hs).remaining, (h.swap hs).hint⟩
  linear hs := ⟨(h.linear hs).bound, (h.linear hs).remaining⟩

/-- A page that takes a frame keeps the frames in the books. -/
theorem FrameBooks.takes {key : PageKey} (h : FrameBooks k p) (ht : Takes k key p p') :
    FrameBooks k p' := by
  cases ht with
  | @free frame unit hs hkey hlt hfree hpos hr =>
      refine ⟨fun key₁ key₂ f hf hf' => ?_, fun hs => ?_, fun hs' => ?_⟩
      · have hun := ((h.swap hs).free frame hlt).mp hfree
        simp only [Function.update_apply] at hf hf'
        have hinj := h.injective key₁ key₂ f
        grind
      · exact (h.swap hs).take hkey hlt hfree unit
      · rw [hs] at hs'
        exact nomatch hs'
  | next hs hkey =>
      have hb := (h.linear hs).bound
      refine ⟨fun key₁ key₂ f hf hf' => ?_, fun hs' => ?_, fun _ => ⟨fun key' f hf => ?_, ?_⟩⟩
      · simp only [Function.update_apply] at hf hf'
        have hinj := h.injective key₁ key₂ f
        have hb₁ := hb key₁ f
        have hb₂ := hb key₂ f
        grind
      · rw [hs] at hs'
        exact nomatch hs'
      · simp only [Function.update_apply] at hf
        have hb' := hb key' f
        show f < p.frameDimm + 1
        grind
      · exact (h.linear hs).remaining

/-- Every move keeps the books on frames. -/
theorem FrameBooks.move (h : FrameBooks k p) (hm : PagingMove k p p') : FrameBooks k p' := by
  cases hm with
  | look hl =>
      obtain ⟨tlb, unit, rfl⟩ := hl.unchanged
      exact h.withTables tlb unit
  | @evict victim frame tlb unit hv hkey ht hfull =>
      refine ⟨fun key key' f hf hf' => ?_, fun hs => ?_, fun hs => ?_⟩
      · simp only [Function.update_apply] at hf hf'
        have hinj := h.injective key key' f
        grind
      · exact (h.swap hs).evict h.injective hkey tlb unit
      · have hrem := (h.linear hs).remaining
        omega
  | take ht => exact h.takes ht

/-- There is never less than no frame. -/
theorem FrameBooks.remaining_nonneg (h : FrameBooks k p) : 0 ≤ p.freeFramesRemaining := by
  cases hs : k.noPageSwap with
  | false =>
      rw [(h.swap hs).remaining]
      exact Int.natCast_nonneg _
  | true =>
      rw [(h.linear hs).remaining]
      norm_num

/-! ## Looking for a free frame -/

/-- The search stops at a free frame that it meets before it is back at the start. -/
theorem searchLoop_finds {free : ℕ → Bool} {n start : ℕ} (i : ℕ)
    {rounds frame : ℕ} (hi : 1 ≤ i) (hr : i ≤ rounds) (hfree : free ((frame + i) % n) = true)
    (hbefore : ∀ j, 1 ≤ j → j < i → (frame + j) % n ≠ start) :
    ∃ g, Paging.searchLoop free n start rounds frame = some g ∧ free g = true ∧
      ∃ j, g = (frame + j) % n := by
  induction rounds generalizing i frame with
  | zero => omega
  | succ rounds ih =>
      simp only [Paging.searchLoop]
      split
      · rename_i hgo
        have hne : i ≠ 1 := by
          rintro rfl
          rw [hfree] at hgo
          exact nomatch hgo.2
        have hshift : ∀ j, ((frame + 1) % n + j) % n = (frame + (j + 1)) % n := fun j => by
          rw [Nat.mod_add_mod]
          congr 1
          omega
        have hfree' : free (((frame + 1) % n + (i - 1)) % n) = true := by
          rw [hshift, show i - 1 + 1 = i by omega, hfree]
        have hbefore' : ∀ j, 1 ≤ j → j < i - 1 → ((frame + 1) % n + j) % n ≠ start :=
          fun j hj hji => by
            rw [hshift]
            exact hbefore (j + 1) (by omega) (by omega)
        obtain ⟨g, hg, hgfree, j, hj⟩ := ih (i - 1) (by omega) (by omega) hfree' hbefore'
        exact ⟨g, hg, hgfree, j + 1, hj.trans (hshift j)⟩
      · rename_i hstop
        refine ⟨_, rfl, ?_, 1, rfl⟩
        by_cases hone : i = 1
        · rw [← hone]
          exact hfree
        · have hne := hbefore 1 le_rfl (by omega)
          by_contra hf
          exact hstop ⟨hne, by simpa using hf⟩

/-- One round of all frames is enough for the search, and it ends at a free frame. -/
theorem searchLoop_free {free : ℕ → Bool} {n start f : ℕ} (hstart : free start = false)
    (hsn : start < n) (hfn : f < n) (hf : free f = true) :
    ∃ g, Paging.searchLoop free n start n start = some g ∧ free g = true ∧ g < n := by
  have hne : f ≠ start := by
    rintro rfl
    rw [hf] at hstart
    exact nomatch hstart
  -- The distance from the start to the free frame, going up and around.
  obtain ⟨i, hi, hin, hif⟩ : ∃ i, 1 ≤ i ∧ i < n ∧ (start + i) % n = f := by
    by_cases hlt : start < f
    · exact ⟨f - start, by omega, by omega, by
        rw [show start + (f - start) = f by omega, Nat.mod_eq_of_lt hfn]⟩
    · refine ⟨f + n - start, by omega, by omega, ?_⟩
      rw [show start + (f + n - start) = f + n by omega, Nat.add_mod_right, Nat.mod_eq_of_lt hfn]
  have hbefore : ∀ j, 1 ≤ j → j < i → (start + j) % n ≠ start := by
    intro j hj hji hback
    by_cases hwrap : start + j < n
    · rw [Nat.mod_eq_of_lt hwrap] at hback
      omega
    · rw [Nat.mod_eq_sub_mod (by omega), Nat.mod_eq_of_lt (by omega)] at hback
      omega
  obtain ⟨g, hg, hgfree, j, hj⟩ :=
    searchLoop_finds i hi hin.le (hif ▸ hf) hbefore
  exact ⟨g, hg, hgfree, hj ▸ Nat.mod_lt _ (by omega)⟩

/-- With a free frame left, a frame is found, and the page is mapped to it. -/
theorem FrameBooks.allocate {key : PageKey} (h : FrameBooks k p)
    (hpos : 0 < p.freeFramesRemaining) (hkey : p.pageTable key = none) :
    ∃ q, p.pickFrame k = .ok q ∧
      ((q.mapPage k key = .error .replacementInsert ∧ k.noPageSwap = false ∧
          p.replacementUnit.insert ⟨key.page, defaultPid⟩ () = none) ∨
        ∃ p', q.mapPage k key = .ok p' ∧ Takes k key p p') := by
  cases hs : k.noPageSwap with
  | true =>
      refine ⟨_, by rw [Paging.pickFrame, if_pos hs], .inr ⟨_, by rw [Paging.mapPage, if_pos hs], ?_⟩⟩
      simp only [hkey, Option.none_or]
      exact .next hs hkey
  | false =>
      have hb := h.swap hs
      have hcount : 0 < freeCount k.numFrames p.freeFrames := by
        have hrem := hb.remaining
        omega
      obtain ⟨f, hfn, hf⟩ := exists_free hcount
      have hpick : ∃ frame, p.pickFrame k = .ok { p with frameToAllocate := frame } ∧
          p.freeFrames frame = true ∧ frame < k.numFrames := by
        have hhint := hb.hint (by omega)
        by_cases hcur : p.freeFrames p.frameToAllocate = true
        · exact ⟨p.frameToAllocate, by rw [Paging.pickFrame, hs, if_neg (by simp), if_pos hcur], hcur,
            hhint⟩
        · obtain ⟨g, hg, hgfree, hgn⟩ := searchLoop_free (by simpa using hcur) hhint hfn hf
          refine ⟨g, ?_, hgfree, hgn⟩
          rw [Paging.pickFrame, hs, if_neg (by simp), if_neg hcur]
          simp only [hg, hgfree, if_true]
      obtain ⟨frame, hq, hfree, hlt⟩ := hpick
      refine ⟨_, hq, ?_⟩
      unfold Paging.mapPage
      simp only [hs, Bool.false_eq_true, if_false, hkey, Option.none_or]
      cases hr : p.replacementUnit.insert ⟨key.page, defaultPid⟩ () with
      | none => exact .inl ⟨rfl, True.intro, rfl⟩
      | some unit => exact .inr ⟨_, rfl, .free hs hkey hlt hfree hpos hr⟩

/-! ## The TLB -/

/-- What the TLB holds is in the page table. -/
structure Coherent (p : Paging) : Prop where
  tlb : WellFormed p.tlb
  agrees : ∀ key f, p.tlb.find key = some f → p.pageTable key = some f

/-- At first the TLB agrees with the page table. -/
theorem Coherent.initial (k : MmuKnobs) : Coherent (initializePaging k) where
  tlb := WellFormed.new _ _
  agrees _ _ h := nomatch h

/-- A walk makes at most one new entry in the TLB, for its own page. -/
theorem fillTlb_spec {t t' : Tlb} {key : PageKey} {frame : ℕ} (hw : WellFormed t)
    (h : Mmu.fillTlb t key frame = some t') :
    WellFormed t' ∧ ∀ key' f, t'.find key' = some f →
      (key' = key ∧ f = frame) ∨ t.find key' = some f := by
  obtain ⟨t₁, h₁, h₂⟩ := Option.bind_eq_some_iff.mp h
  obtain ⟨node, hn⟩ := WellFormed.touch_eq_of_update h₂
  rw [WellFormed.find_touch hn]
  split at h₁
  · cases h₁
    exact ⟨hw.touch hn, fun key' f hf => .inr hf⟩
  · exact ⟨(hw.insert h₁).touch hn, fun key' f hf => hw.find_insert h₁ hf⟩

/-- A look keeps the TLB in agreement with the page table. -/
theorem Coherent.look (h : Coherent p) (hl : Look k p p') : Coherent p' := by
  cases hl with
  | hit ht =>
      refine ⟨h.tlb.touch ht, fun key f hf => ?_⟩
      rw [WellFormed.find_touch ht] at hf
      exact h.agrees key f hf
  | walk hkey ht hr =>
      obtain ⟨hw, hfind⟩ := fillTlb_spec h.tlb ht
      refine ⟨hw, fun key' f hf => ?_⟩
      obtain ⟨rfl, rfl⟩ | hold := hfind key' f hf
      · exact hkey
      · exact h.agrees key' f hold

/-- Every move keeps the TLB coherent. -/
theorem Coherent.move (h : Coherent p) (hm : PagingMove k p p') : Coherent p' := by
  cases hm with
  | look hl => exact h.look hl
  | evict hv hkey ht hfull =>
      refine ⟨h.tlb.invalidate ht, fun key' f hf => ?_⟩
      obtain ⟨hne, hold⟩ := h.tlb.find_invalidate ht hf
      show Function.update p.pageTable _ none key' = some f
      rw [Function.update_of_ne hne]
      exact h.agrees key' f hold
  | @take key p' ht =>
      have htlb : p'.tlb = p.tlb := by cases ht <;> rfl
      obtain ⟨hkey, frame, hpt⟩ := ht.pageTable_eq
      refine ⟨htlb ▸ h.tlb, fun key' f hf => ?_⟩
      rw [htlb] at hf
      have hold := h.agrees key' f hf
      have hne : key' ≠ key := by
        rintro rfl
        rw [hkey] at hold
        exact nomatch hold
      rw [hpt, Function.update_of_ne hne, hold]

end MacSim.Analysis
