import MacSim.Model.Hierarchy
import MacSim.Analysis.SliceIndexing

/-!
# What invalidating a page leaves behind

`invalidate_cache_line` drops the first valid way with the tag, so it takes one from the
number of valid copies of a tag and leaves every other tag alone
(`copies_invalidateCacheLine`).  A pass over the lines of a page therefore takes from each
tag as many copies as the page has lines with it (`copies_foldl_invalidate`).

The running address reaches the end of the page in the first cache that is visited and is
never set back, so every later loop is empty (`foldlM_sweepDcu_done`).
`invalidate_complete_iff` says exactly in which states a page is nevertheless gone from all
the caches that the call covers.
-/

set_option autoImplicit false

namespace MacSim.Analysis

open MacSim.Model

variable {δ : Type}

/-! ## Copies of a line -/

/-- The number of valid ways that carry a tag, in one set. -/
def copies (c : Cache δ) (key : Addr × ℕ) : ℕ :=
  (c.set key.2).entry.countP (CacheEntry.holds key.1)

/-- A line is not found exactly when the cache has no copy of it. -/
theorem lookup_eq_none_iff (c : Cache δ) (a : Addr) :
    c.lookup a = none ↔ copies c (c.param.findTagAndSet a) = 0 := by
  simp [Cache.lookup, copies, List.countP_eq_zero]

/-- An access hits exactly when the cache is used and has a copy. -/
theorem hits_iff (c : Cache δ) (a : Addr) :
    c.hits a = true ↔
      c.param.cacheByPass = false ∧ 0 < copies c (c.param.findTagAndSet a) := by
  have hnone := lookup_eq_none_iff c a
  unfold Cache.hits Cache.accessCache
  cases hb : c.param.cacheByPass with
  | true => simp
  | false =>
      cases hl : c.lookup a with
      | none =>
          have := hnone.mp hl
          simp [this]
      | some l =>
          have hpos : copies c (c.param.findTagAndSet a) ≠ 0 := by
            intro h0
            rw [hnone.mpr h0] at hl
            cases hl
          simp [Nat.pos_of_ne_zero hpos]

/-- Nulling the first entry with a tag takes one from the count of this tag. -/
theorem countP_modify_findIdx [Inhabited δ] (entry : List (CacheEntry δ)) (tag other : Addr)
    (way : ℕ) (h : entry.findIdx? (CacheEntry.holds tag) = some way) :
    (entry.modify way CacheEntry.nullCacheLineFields).countP (CacheEntry.holds other) =
      entry.countP (CacheEntry.holds other) - if tag = other then 1 else 0 := by
  induction entry generalizing way with
  | nil => simp at h
  | cons line rest ih =>
      rw [List.findIdx?_cons] at h
      by_cases hl : line.holds tag = true
      · rw [if_pos hl] at h
        obtain rfl : 0 = way := Option.some.inj h
        have hnull : (line.nullCacheLineFields).holds other = false := by
          simp [CacheEntry.holds, CacheEntry.nullCacheLineFields]
        have htag : line.valid = true ∧ line.tag = tag := by
          simpa [CacheEntry.holds] using hl
        have hother : line.holds other = decide (tag = other) := by
          simp [CacheEntry.holds, htag.1, htag.2, beq_eq_decide]
        rw [List.modify_zero_cons, List.countP_cons, List.countP_cons, hnull, hother]
        by_cases ht : tag = other <;> simp [ht]
      · rw [if_neg hl] at h
        obtain ⟨w, hw, rfl⟩ := Option.map_eq_some_iff.mp h
        rw [List.modify_succ_cons, List.countP_cons, List.countP_cons, ih w hw]
        by_cases ht : tag = other
        · subst ht
          have hpos : 0 < rest.countP (CacheEntry.holds tag) := by
            rw [List.countP_pos_iff]
            obtain ⟨hlt, hx, -⟩ := List.findIdx?_eq_some_iff_getElem.mp hw
            exact ⟨rest[w], List.getElem_mem hlt, hx⟩
          rw [if_pos rfl]
          omega
        · rw [if_neg ht]
          omega

/-- Invalidating a line keeps the parameters of the cache. -/
theorem param_invalidateCacheLine [Inhabited δ] (c : Cache δ) (a : Addr) :
    (c.invalidateCacheLine a).param = c.param := by
  unfold Cache.invalidateCacheLine
  split <;> rfl

/-- One invalidation takes away one copy of the line it names. -/
theorem copies_invalidateCacheLine [Inhabited δ] (c : Cache δ) (a : Addr) (key : Addr × ℕ) :
    copies (c.invalidateCacheLine a) key =
      copies c key - if c.param.findTagAndSet a = key then 1 else 0 := by
  unfold Cache.invalidateCacheLine
  split
  · rename_i hl
    have h0 := (lookup_eq_none_iff c a).mp hl
    by_cases hk : c.param.findTagAndSet a = key
    · subst hk
      rw [h0]
      omega
    · rw [if_neg hk]
      omega
  · rename_i l hl
    obtain ⟨way, hway, rfl⟩ := Option.map_eq_some_iff.mp hl
    by_cases hs : (c.param.findTagAndSet a).2 = key.2
    · have hstep := countP_modify_findIdx _ _ key.1 way hway
      have hkey : c.param.findTagAndSet a = key ↔ (c.param.findTagAndSet a).1 = key.1 := by
        rw [Prod.ext_iff, and_iff_left hs]
      simp only [copies, Cache.modifyEntry, Cache.modifySet, hs, Function.update_self]
      rw [hs] at hstep
      simp only [hkey]
      exact hstep
    · have hkey : c.param.findTagAndSet a ≠ key := fun h => hs (congrArg Prod.snd h)
      rw [if_neg hkey]
      simp only [copies, Cache.modifyEntry, Cache.modifySet]
      rw [Function.update_of_ne (Ne.symm hs)]
      rfl

/-- A pass takes as many copies of a line as it has addresses of it. -/
theorem copies_foldl_invalidate [Inhabited δ] (c : Cache δ) (as : List Addr)
    (key : Addr × ℕ) :
    (as.foldl Cache.invalidateCacheLine c).param = c.param ∧
      copies (as.foldl Cache.invalidateCacheLine c) key =
        copies c key - as.countP fun a => c.param.findTagAndSet a = key := by
  induction as generalizing c with
  | nil => simp
  | cons a as ih =>
      obtain ⟨hp, hc⟩ := ih (c.invalidateCacheLine a)
      rw [param_invalidateCacheLine] at hp hc
      refine ⟨hp, ?_⟩
      rw [List.foldl_cons, hc, copies_invalidateCacheLine, List.countP_cons]
      by_cases hk : c.param.findTagAndSet a = key
      · simp only [hk, if_true, decide_true]
        omega
      · simp only [hk, if_false, decide_false, Bool.false_eq_true]
        omega

/-! ## One cache -/

/-- Addresses add up as numbers as long as they fit. -/
theorem toNat_add_ofNat {a : Addr} {d : ℕ} (h : a.toNat + d < 2 ^ 64) :
    (a + BitVec.ofNat 64 d).toNat = a.toNat + d := by
  rw [BitVec.toNat_add, BitVec.toNat_ofNat, Nat.mod_eq_of_lt (a := d) (by omega),
    Nat.mod_eq_of_lt h]

/-- The addresses a loop over `n` lines visits. -/
def lineAddrs (lineSize : ℕ) (start : Addr) (n : ℕ) : List Addr :=
  (List.range n).map fun i => start + BitVec.ofNat 64 (i * lineSize)

/-- The lines of a page are the first one and the lines after it. -/
theorem lineAddrs_succ (lineSize : ℕ) (start : Addr) (n : ℕ) :
    lineAddrs lineSize start (n + 1) =
      start :: lineAddrs lineSize (start + BitVec.ofNat 64 lineSize) n := by
  have hnext (i : ℕ) : start + BitVec.ofNat 64 ((i + 1) * lineSize) =
      start + BitVec.ofNat 64 lineSize + BitVec.ofNat 64 (i * lineSize) := by
    rw [BitVec.add_assoc, ← BitVec.ofNat_add, Nat.succ_mul, Nat.add_comm]
  simp [lineAddrs, List.range_succ_eq_map, hnext, Function.comp_def]

/-- At the end of the page the loop does nothing, with or without a cache. -/
theorem sweep_of_le [Inhabited δ] (lineSize : ℕ) {addr endAddr : Addr}
    (h : endAddr.toNat ≤ addr.toNat) (fuel : ℕ) (c : Option (Cache δ)) :
    Hierarchy.sweep lineSize endAddr fuel addr c = some (addr, c) := by
  have hnot : ¬ addr < endAddr := by
    rw [BitVec.lt_def]
    omega
  cases fuel with
  | zero => simp [Hierarchy.sweep, hnot]
  | succ fuel => simp [Hierarchy.sweep, hnot]

/-- Before the end of the page the loop needs a cache. -/
theorem sweep_none [Inhabited δ] (lineSize : ℕ) {addr endAddr : Addr}
    (h : addr.toNat < endAddr.toNat) (fuel : ℕ) :
    Hierarchy.sweep (δ := δ) lineSize endAddr fuel addr none = none := by
  have hlt : addr < endAddr := by
    rw [BitVec.lt_def]
    exact h
  cases fuel with
  | zero => simp [Hierarchy.sweep, hlt]
  | succ fuel => simp [Hierarchy.sweep, hlt]

/-- A loop that is `n` lines from its end invalidates these lines and stops there. -/
theorem sweep_some [Inhabited δ] {lineSize : ℕ} (hpos : 0 < lineSize) (endAddr : Addr)
    (n fuel : ℕ) (hfuel : n ≤ fuel) (addr : Addr) (c : Cache δ)
    (hend : addr.toNat + n * lineSize = endAddr.toNat) :
    Hierarchy.sweep lineSize endAddr fuel addr (some c) =
      some (endAddr, some ((lineAddrs lineSize addr n).foldl Cache.invalidateCacheLine c)) := by
  induction n generalizing fuel addr c with
  | zero =>
      obtain rfl : addr = endAddr := BitVec.eq_of_toNat_eq (by simpa using hend)
      rw [sweep_of_le lineSize le_rfl]
      rfl
  | succ n ih =>
      obtain ⟨fuel, rfl⟩ : ∃ f, fuel = f + 1 := ⟨fuel - 1, by omega⟩
      have hbound := endAddr.isLt
      rw [Nat.succ_mul] at hend
      have hlt : addr < endAddr := by
        rw [BitVec.lt_def]
        omega
      have hstep : (addr + BitVec.ofNat 64 lineSize).toNat = addr.toNat + lineSize :=
        toNat_add_ofNat (by omega)
      rw [lineAddrs_succ, List.foldl_cons]
      simp only [Hierarchy.sweep, if_pos hlt]
      apply ih
      · omega
      · rw [hstep]
        omega

/-! ## The whole walk -/

/-- The addresses the call visits in a cache that it starts at the beginning of the page. -/
def pageLines (h : Hierarchy δ) (v : DcuId) (page : Addr) : List Addr :=
  lineAddrs (h.lineSize v) page (h.pageSize / h.lineSize v)

/-- When the sum overflows, the end address lies below the page. -/
theorem toNat_endAddr_lt (h : Hierarchy δ) {page : Addr} (hover : 2 ^ 64 ≤ page.toNat + h.pageSize) :
    (page + BitVec.ofNat 64 h.pageSize).toNat ≤ page.toNat := by
  have hsize := h.pageSize_lt
  have hpage := page.isLt
  rw [BitVec.toNat_add, BitVec.toNat_ofNat, Nat.mod_eq_of_lt (a := h.pageSize) (by omega)]
  omega

section Walk

variable [Inhabited δ] (h : Hierarchy δ)

/-- Once the running address has reached the end, the remaining caches are left alone. -/
theorem foldlM_sweepDcu_done {addr endAddr : Addr} (hle : endAddr.toNat ≤ addr.toNat)
    (caches : DcuId → Option (Cache δ)) (vs : List DcuId) :
    vs.foldlM (h.sweepDcu endAddr) (addr, caches) = some (addr, caches) := by
  induction vs with
  | nil => rfl
  | cons v vs ih =>
      have hone : h.sweepDcu endAddr (addr, caches) v = some (addr, caches) := by
        simp [Hierarchy.sweepDcu, sweep_of_le _ hle]
      rw [List.foldlM_cons, hone]
      exact ih

/-- The first cache is swept, and only this one. -/
theorem invalidate_first {org : Organisation} {page : Addr} {v : DcuId} {vs : List DcuId}
    (hfit : page.toNat + h.pageSize < 2 ^ 64) (hcov : h.covered org = v :: vs) :
    h.invalidate org page =
      (h.cache v).map fun c =>
        { h with
          cache := Function.update h.cache v
            (some ((pageLines h v page).foldl Cache.invalidateCacheLine c)) } := by
  have hend := toNat_add_ofNat hfit
  have hpos := h.pageSize_pos
  unfold Hierarchy.invalidate
  rw [hcov, List.foldlM_cons]
  cases hc : h.cache v with
  | none =>
      have hnone : h.sweepDcu (page + BitVec.ofNat 64 h.pageSize) (page, h.cache) v = none := by
        simp only [Hierarchy.sweepDcu, hc, Option.map_eq_none_iff]
        apply sweep_none
        omega
      rw [hnone]
      rfl
  | some c =>
      have hlines := Nat.div_mul_cancel (h.lineSize_dvd v)
      have hfuel : h.pageSize / h.lineSize v ≤
          (page + BitVec.ofNat 64 h.pageSize - page).toNat := by
        have hle : page ≤ page + BitVec.ofNat 64 h.pageSize := by
          rw [BitVec.le_def]
          omega
        rw [BitVec.toNat_sub_of_le hle, hend, Nat.add_sub_cancel_left]
        exact Nat.div_le_self _ _
      have hone : h.sweepDcu (page + BitVec.ofNat 64 h.pageSize) (page, h.cache) v =
          some (page + BitVec.ofNat 64 h.pageSize, Function.update h.cache v
            (some ((pageLines h v page).foldl Cache.invalidateCacheLine c))) := by
        simp only [Hierarchy.sweepDcu, hc]
        rw [sweep_some (h.lineSize_pos v) _ _ _ hfuel page c (by omega)]
        rfl
      rw [hone]
      simp only [Option.bind_eq_bind, Option.bind_some]
      rw [foldlM_sweepDcu_done h le_rfl]
      rfl

/-- A page at the end of the address space is not swept at all. -/
theorem invalidate_of_overflow {org : Organisation} {page : Addr}
    (hover : 2 ^ 64 ≤ page.toNat + h.pageSize) : h.invalidate org page = some h := by
  unfold Hierarchy.invalidate
  rw [foldlM_sweepDcu_done h (toNat_endAddr_lt h hover)]
  rfl

end Walk

/-! ## When a page is gone -/

/-- What a caller of `invalidate` expects: the call returns, no cache that it covers hits
inside the page, and no line outside the page is lost anywhere. -/
def Complete [Inhabited δ] (h : Hierarchy δ) (org : Organisation) (page : Addr) : Prop :=
  ∃ h', h.invalidate org page = some h' ∧
    (∀ v ∈ h.covered org, ∀ a, h.InPage page a → h'.hits v a = false) ∧
    ∀ v a, ¬ h.InPage page a → h.hits v a = true → h'.hits v a = true

/-- One pass over the lines of the page is enough for the cache `c` at `v`: a line of the
page that hits has no more valid copies than the pass has addresses with its tag and set,
and a line outside the page that hits has more.  In a cache without tiles the pass has one
address for each line of the page and none for the others (`onePassSuffices_iff`). -/
def OnePassSuffices (h : Hierarchy δ) (page : Addr) (v : DcuId) (c : Cache δ) : Prop :=
  ∀ a, c.hits a = true →
    (h.InPage page a ↔
      copies c (c.param.findTagAndSet a) ≤
        (pageLines h v page).countP fun b =>
          c.param.findTagAndSet b = c.param.findTagAndSet a)

/-- A line hits after the pass when it has more copies than the pass has addresses of it. -/
theorem hits_foldl_invalidate [Inhabited δ] (c : Cache δ) (as : List Addr) (a : Addr) :
    (as.foldl Cache.invalidateCacheLine c).hits a = true ↔
      c.hits a = true ∧
        (as.countP fun b => c.param.findTagAndSet b = c.param.findTagAndSet a) <
          copies c (c.param.findTagAndSet a) := by
  obtain ⟨hp, hc⟩ := copies_foldl_invalidate c as (c.param.findTagAndSet a)
  rw [hits_iff, hits_iff, hp, hc]
  constructor
  · rintro ⟨hb, hlt⟩
    exact ⟨⟨hb, by omega⟩, by omega⟩
  · rintro ⟨⟨hb, -⟩, hlt⟩
    exact ⟨hb, by omega⟩

/-- The pass does what is asked of the first cache exactly when one pass suffices. -/
theorem pass_complete_iff [Inhabited δ] (h : Hierarchy δ) (page : Addr) (v : DcuId)
    (c : Cache δ) :
    ((∀ a, h.InPage page a →
        ((pageLines h v page).foldl Cache.invalidateCacheLine c).hits a = false) ∧
      ∀ a, ¬ h.InPage page a → c.hits a = true →
        ((pageLines h v page).foldl Cache.invalidateCacheLine c).hits a = true) ↔
      OnePassSuffices h page v c := by
  constructor
  · rintro ⟨hin, hout⟩ a ha
    constructor
    · intro hp
      by_contra hlt
      have := (hits_foldl_invalidate c (pageLines h v page) a).mpr ⟨ha, by omega⟩
      rw [hin a hp] at this
      cases this
    · intro hle
      by_contra hp
      have := ((hits_foldl_invalidate c _ a).mp (hout a hp ha)).2
      omega
  · intro hone
    refine ⟨fun a hp => ?_, fun a hp ha => ?_⟩
    · rw [← Bool.not_eq_true, hits_foldl_invalidate]
      rintro ⟨ha, hlt⟩
      have := (hone a ha).mp hp
      omega
    · rw [hits_foldl_invalidate]
      refine ⟨ha, ?_⟩
      by_contra hle
      exact hp ((hone a ha).mpr (by omega))

/-- Without tiles the tag and the set of an address are those of its line. -/
theorem findTagAndSet_eq_iff_of_untiled (p : CacheParam) (htiles : p.tiles = 1)
    (hib : p.interleaveBits < 32) {k : ℕ} (hline : p.lineSize = 2 ^ k) (a b : Addr) :
    p.findTagAndSet a = p.findTagAndSet b ↔ a.toNat / 2 ^ k = b.toNat / 2 ^ k := by
  have hshift : p.shiftBits = k := by
    rw [CacheParam.shiftBits, hline, log2Int_two_pow]
  have hkey (x : ℕ) : lineKey p.interleaveBits p.tiles p.shiftBits x = x / 2 ^ k := by
    rw [lineKey, htiles, hshift, Nat.div_one, Nat.div_add_mod']
  rw [findTagAndSet_eq_iff p a b hib (by omega), hkey, hkey]

/-- An interval of line numbers meets each of its members once. -/
theorem countP_range_add_eq (q n x : ℕ) :
    ((List.range n).countP fun i => q + i = x) = if q ≤ x ∧ x < q + n then 1 else 0 := by
  induction n with
  | zero =>
      rw [if_neg (by omega)]
      rfl
  | succ n ih =>
      rw [List.range_succ, List.countP_append, ih, List.countP_singleton]
      simp only [decide_eq_true_eq]
      split_ifs <;> omega

/-- In a cache without tiles, which every L1, L2 and L3 is, one pass suffices exactly when
each line of the page that hits has a single valid copy. -/
theorem onePassSuffices_iff (h : Hierarchy δ) (page : Addr) (v : DcuId) (c : Cache δ)
    (htiles : c.param.tiles = 1) (hib : c.param.interleaveBits < 32) {k : ℕ}
    (hline : c.param.lineSize = 2 ^ k) (hdcu : h.lineSize v = 2 ^ k)
    (haligned : 2 ^ k ∣ page.toNat) (hfit : page.toNat + h.pageSize < 2 ^ 64) :
    OnePassSuffices h page v c ↔
      ∀ a, h.InPage page a → c.hits a = true → copies c (c.param.findTagAndSet a) = 1 := by
  obtain ⟨q, hq⟩ := haligned
  obtain ⟨n, hn⟩ := h.lineSize_dvd v
  rw [hdcu] at hn
  have hk : 0 < 2 ^ k := Nat.two_pow_pos k
  have hdiv : h.pageSize / h.lineSize v = n := by
    rw [hdcu, hn, Nat.mul_div_cancel_left _ hk]
  -- the line numbers of the page are `q, q + 1, …, q + n - 1`, each visited once
  have hpass (a : Addr) :
      ((pageLines h v page).countP fun b =>
        c.param.findTagAndSet b = c.param.findTagAndSet a) =
          if q ≤ a.toNat / 2 ^ k ∧ a.toNat / 2 ^ k < q + n then 1 else 0 := by
    have hnum (i : ℕ) (hi : i < n) :
        (page + BitVec.ofNat 64 (i * 2 ^ k)).toNat / 2 ^ k = q + i := by
      have hlt : i * 2 ^ k < 2 ^ k * n := by
        rw [Nat.mul_comm]
        exact Nat.mul_lt_mul_of_pos_left hi hk
      have hsum : (page + BitVec.ofNat 64 (i * 2 ^ k)).toNat = 2 ^ k * (q + i) := by
        rw [toNat_add_ofNat (by omega), hq]
        ring
      rw [hsum, Nat.mul_div_cancel_left _ hk]
    rw [pageLines, hdiv, hdcu, lineAddrs, List.countP_map, ← countP_range_add_eq]
    apply List.countP_congr
    intro i hi
    have hi := List.mem_range.mp hi
    simp only [Function.comp_apply, decide_eq_true_eq]
    rw [findTagAndSet_eq_iff_of_untiled _ htiles hib hline, hnum i hi]
  have hpage (a : Addr) :
      h.InPage page a ↔ q ≤ a.toNat / 2 ^ k ∧ a.toNat / 2 ^ k < q + n := by
    rw [Hierarchy.InPage, hn, hq, Nat.le_div_iff_mul_le hk, Nat.div_lt_iff_lt_mul hk, ← Nat.mul_add,
      Nat.mul_comm q, Nat.mul_comm (q + n)]
  constructor
  · intro hone a ha hit
    have hle := (hone a hit).mp ha
    have hpos := ((hits_iff c a).mp hit).2
    rw [hpass, if_pos ((hpage a).mp ha)] at hle
    omega
  · intro hsingle a hit
    have hpos := ((hits_iff c a).mp hit).2
    rw [hpass]
    by_cases ha : h.InPage page a
    · rw [if_pos ((hpage a).mp ha), hsingle a ha hit]
      exact iff_of_true ha le_rfl
    · rw [if_neg (fun hp => ha ((hpage a).mpr hp))]
      exact iff_of_false ha (by omega)

/-- The states in which invalidating a page is complete.  The running address is shared by
all the loops, so the call only ever works on the first cache it visits: this cache has to
exist and be cleared by one pass, and no other cache may hold a line of the page.  A page
that ends at the last address is not swept at all, because the end address wraps around. -/
theorem invalidate_complete_iff [Inhabited δ] (h : Hierarchy δ) (org : Organisation)
    (page : Addr) :
    Complete h org page ↔
      if page.toNat + h.pageSize < 2 ^ 64 then
        ∀ v ∈ (h.covered org).head?,
          (∃ c, h.cache v = some c ∧ OnePassSuffices h page v c) ∧
            ∀ w ∈ h.covered org, w ≠ v → ∀ a, h.InPage page a → h.hits w a = false
      else ∀ v ∈ h.covered org, ∀ a, h.InPage page a → h.hits v a = false := by
  split
  · rename_i hfit
    cases hcov : h.covered org with
    | nil =>
        have hid : h.invalidate org page = some h := by
          unfold Hierarchy.invalidate
          rw [hcov]
          rfl
        simp [Complete, hid, hcov]
    | cons v vs =>
        have hcall := invalidate_first h hfit hcov
        simp only [List.head?_cons, Option.mem_def, Option.some.injEq, forall_eq']
        unfold Complete
        rw [hcall, hcov]
        constructor
        · rintro ⟨h', hret, hin, hout⟩
          obtain ⟨c, hc, rfl⟩ := Option.map_eq_some_iff.mp hret
          refine ⟨⟨c, hc, (pass_complete_iff h page v c).mp ⟨?_, ?_⟩⟩, ?_⟩
          · intro a ha
            simpa [Hierarchy.hits] using hin v List.mem_cons_self a ha
          · intro a ha hit
            simpa [Hierarchy.hits] using hout v a ha (by simpa [Hierarchy.hits, hc] using hit)
          · intro w hw hne a ha
            simpa [Hierarchy.hits, hne] using hin w hw a ha
        · rintro ⟨⟨c, hc, hone⟩, hrest⟩
          obtain ⟨hin, hout⟩ := (pass_complete_iff h page v c).mpr hone
          refine ⟨_, by rw [hc]; rfl, ?_, ?_⟩
          · intro w hw a ha
            by_cases hne : w = v
            · subst hne
              simpa [Hierarchy.hits] using hin a ha
            · simpa [Hierarchy.hits, hne] using hrest w hw hne a ha
          · intro w a ha hit
            by_cases hne : w = v
            · subst hne
              simpa [Hierarchy.hits] using hout a ha (by simpa [Hierarchy.hits, hc] using hit)
            · simpa [Hierarchy.hits, hne] using hit
  · rename_i hover
    have hid : h.invalidate org page = some h := invalidate_of_overflow h (by omega)
    constructor
    · rintro ⟨h', hret, hin, -⟩
      obtain rfl : h = h' := Option.some.inj (hid.symm.trans hret)
      exact hin
    · intro hin
      exact ⟨h, hid, hin, fun _ _ _ hit => hit⟩

/-- A cache of one way that holds the line at `0x1000`. -/
def holdingPage : Cache Unit :=
  { param :=
      { numSet := 1, assoc := 1, lineSize := 64, bankNum := 1, cacheByPass := false,
        enablePartition := false, numTiles := 1, interleaveFactor := 0 }
    set := fun _ =>
      { entry := [{ CacheEntry.fresh with valid := true, tag := 0x40, base := 0x1000 }]
        numCpuLine := 1
        numGpuLine := 0 }
    numCpuLine := 1
    numGpuLine := 0
    insertCount := 1 }

/-- One core and one slice of the last level, which all hold the same line.  The L3 has no
cache: the coupled organisation does not initialise it. -/
def sharedLine : Hierarchy Unit where
  numCore := 1
  numL3 := 1
  numLlc := 1
  pageSize := 4096
  lineSize := fun _ => 64
  cache := fun v => if v.level = .l3 then none else some holdingPage
  lineSize_pos := fun _ => by decide
  lineSize_dvd := fun _ => by decide
  pageSize_pos := by decide
  pageSize_lt := by decide

/-- The page is swept out of the L1, and the line stays in the L2. -/
theorem sharedLine_not_complete : ¬ Complete sharedLine .llcCoupledNetwork 0x1000 := by
  rintro ⟨h', hret, hin, -⟩
  have hcov : sharedLine.covered .llcCoupledNetwork =
      [⟨.l1, 0⟩, ⟨.l2, 0⟩, ⟨.l3, 0⟩, ⟨.llc, 0⟩] := by decide
  rw [invalidate_first sharedLine (by decide) hcov] at hret
  obtain ⟨c, -, rfl⟩ := Option.map_eq_some_iff.mp hret
  have hmiss := hin ⟨.l2, 0⟩ (by decide) 0x1000 (by decide)
  have hhit : sharedLine.hits ⟨.l2, 0⟩ 0x1000 = true := by decide
  simp only [Hierarchy.hits] at hmiss hhit
  rw [Function.update_of_ne (by decide), hhit] at hmiss
  cases hmiss

end MacSim.Analysis
