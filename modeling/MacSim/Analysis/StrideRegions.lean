import MacSim.Model.PrefStride
import Mathlib.Tactic

/-!
# The region table of the stride prefetcher

The search compares the thread id of an entry when thread indexing is on, but nothing ever sets
it; and a full table gives up the entry that was accessed last, not the one that was accessed
longest ago.
-/

set_option autoImplicit false

namespace MacSim.Analysis

open MacSim.Model

namespace PrefStride

variable {k : StrideKnobs} {s s' : PrefStride} {owner : ℕ → ℤ} {x : StrideAccess}
  {prefetches : List Addr}

/-! ## The two searches -/

/-- The entry is looked for under this thread id and this tag. -/
def Matches (k : StrideKnobs) (s : PrefStride) (tid : ℤ) (tag : Addr) (i : ℕ) : Prop :=
  (k.threadIndex = true → tid = (s.region i).tid) ∧ tag = (s.region i).tag ∧
    (s.region i).valid = true

/-- The comparison of the source is that of a region with thread and tag. -/
theorem matches_iff (tid : ℤ) (tag : Addr) (i : ℕ) :
    ((!k.threadIndex || tid == (s.region i).tid) && tag == (s.region i).tag &&
      (s.region i).valid) = true ↔ Matches k s tid tag i := by
  unfold Matches
  rw [Bool.and_eq_true, Bool.and_eq_true, Bool.or_eq_true, Bool.not_eq_true', beq_iff_eq,
    beq_iff_eq, and_assoc]
  refine and_congr_left fun _ => ?_
  cases k.threadIndex <;> simp

/-- No region is found exactly when none matches. -/
theorem findRegion_eq_none {tid : ℤ} {tag : Addr} :
    s.findRegion k tid tag = none ↔ ∀ i < k.tableN, ¬ Matches k s tid tag i := by
  unfold PrefStride.findRegion
  rw [List.find?_eq_none]
  refine forall_congr' fun i => ?_
  rw [List.mem_range, matches_iff]

/-- The region that is found matches. -/
theorem findRegion_some {tid : ℤ} {tag : Addr} {i : ℕ} (h : s.findRegion k tid tag = some i) :
    i < k.tableN ∧ Matches k s tid tag i := by
  have hfound := List.find?_some h
  exact ⟨List.mem_range.mp (List.mem_of_find?_eq_some h), (matches_iff tid tag i).mp hfound⟩

/-- The first entry that is not valid. -/
def firstFree (k : StrideKnobs) (s : PrefStride) : Option ℕ :=
  (List.range k.tableN).find? fun i => !(s.region i).valid

/-- No slot is free exactly when every region is valid. -/
theorem firstFree_eq_none : firstFree k s = none ↔ ∀ i < k.tableN, (s.region i).valid = true := by
  unfold firstFree
  rw [List.find?_eq_none]
  refine forall_congr' fun i => ?_
  rw [List.mem_range, Bool.not_eq_true, Bool.not_eq_false']

/-- An entry that is not valid is taken first. -/
theorem victimFrom_free {l : List ℕ} (r : Option ℕ) {v : ℕ}
    (h : (l.find? fun i => !(s.region i).valid) = some v) : s.victimFrom r l = some v := by
  induction l generalizing r with
  | nil => cases h
  | cons ii l ih =>
      unfold PrefStride.victimFrom
      rw [List.find?_cons] at h
      cases hvalid : (s.region ii).valid with
      | false =>
          rw [hvalid] at h
          cases h
          rw [if_pos rfl]
      | true =>
          rw [hvalid] at h
          rw [if_neg (by decide)]
          exact ih _ h

/-- The entry that the search keeps is the one that was accessed last. -/
theorem victimFrom_full {l : List ℕ} {j : ℕ} (hvalid : ∀ i ∈ l, (s.region i).valid = true) :
    ∃ v, s.victimFrom (some j) l = some v ∧ (v = j ∨ v ∈ l) ∧
      (s.region j).lastAccess ≤ (s.region v).lastAccess ∧
      ∀ i ∈ l, (s.region i).lastAccess ≤ (s.region v).lastAccess := by
  induction l generalizing j with
  | nil => exact ⟨j, rfl, Or.inl rfl, by bv_omega, fun i hi => absurd hi List.not_mem_nil⟩
  | cons ii l ih =>
      have hii := hvalid ii List.mem_cons_self
      have hl : ∀ i ∈ l, (s.region i).valid = true := fun i hi =>
        hvalid i (List.mem_cons_of_mem _ hi)
      unfold PrefStride.victimFrom
      rw [if_neg (Bool.eq_false_iff.not.mpr (not_not.mpr hii))]
      dsimp only
      by_cases hless : (s.region j).lastAccess < (s.region ii).lastAccess
      · obtain ⟨v, hv, hmem, hmax, hall⟩ := ih (j := ii) hl
        rw [if_pos hless]
        refine ⟨v, hv, Or.inr ?_, by bv_omega, fun i hi => ?_⟩
        · rcases hmem with rfl | hmem
          · exact List.mem_cons_self
          · exact List.mem_cons_of_mem _ hmem
        · rcases List.mem_cons.mp hi with rfl | hi
          · exact hmax
          · exact hall i hi
      · obtain ⟨v, hv, hmem, hmax, hall⟩ := ih (j := j) hl
        rw [if_neg hless]
        refine ⟨v, hv, hmem.imp_right (List.mem_cons_of_mem _), hmax, fun i hi => ?_⟩
        rcases List.mem_cons.mp hi with rfl | hi
        · bv_omega
        · exact hall i hi

/-- In a full table the victim is an entry that was accessed last. -/
theorem victim_full (hpos : 0 < k.tableN) (hfull : ∀ i < k.tableN, (s.region i).valid = true) :
    ∃ v < k.tableN, s.victim k = some v ∧
      ∀ i < k.tableN, (s.region i).lastAccess ≤ (s.region v).lastAccess := by
  obtain ⟨n, hn⟩ : ∃ n, k.tableN = n + 1 := ⟨k.tableN - 1, by omega⟩
  unfold PrefStride.victim
  rw [hn, List.range_succ_eq_map]
  have hzero := hfull 0 hpos
  unfold PrefStride.victimFrom
  rw [if_neg (Bool.eq_false_iff.not.mpr (not_not.mpr hzero))]
  dsimp only
  have hvalid : ∀ i ∈ (List.range n).map Nat.succ, (s.region i).valid = true := by
    intro i hi
    obtain ⟨m, hm, rfl⟩ := List.mem_map.mp hi
    have hlt := List.mem_range.mp hm
    exact hfull _ (by omega)
  obtain ⟨v, hv, hmem, hmax, hall⟩ := victimFrom_full (j := 0) hvalid
  refine ⟨v, ?_, hv, fun i hi => ?_⟩
  · rcases hmem with rfl | hmem
    · omega
    · obtain ⟨m, hm, rfl⟩ := List.mem_map.mp hmem
      have hlt := List.mem_range.mp hm
      omega
  · rcases Nat.eq_zero_or_pos i with rfl | hpos
    · exact hmax
    · exact hall i (List.mem_map.mpr ⟨i - 1, List.mem_range.mpr (by omega), by omega⟩)

/-! ## Runs -/

/-- A call makes a new entry. -/
def Creates (k : StrideKnobs) (s : PrefStride) (x : StrideAccess) : Prop :=
  s.findRegion k x.tid (x.lineAddr >>> k.regionBits) = none ∧ x.l2Hit = false

instance creates_decidable (k : StrideKnobs) (s : PrefStride) (x : StrideAccess) :
    Decidable (Creates k s x) := by
  unfold Creates
  infer_instance

/-- The threads that made the entries. -/
def ownerAfter (k : StrideKnobs) (s : PrefStride) (owner : ℕ → ℤ) (x : StrideAccess) : ℕ → ℤ :=
  if Creates k s x then
    match s.victim k with
    | none => owner
    | some v => Function.update owner v x.tid
  else owner

/-- The entry describes the region, and the thread when thread indexing is on. -/
def Describes (k : StrideKnobs) (s : PrefStride) (owner : ℕ → ℤ) (tid : ℤ) (tag : Addr)
    (i : ℕ) : Prop :=
  i < k.tableN ∧ (s.region i).valid = true ∧ (s.region i).tag = tag ∧
    (k.threadIndex = true → owner i = tid)

/-- An access to a region that has an entry finds it, and no other entry describes the region. -/
structure RegionsKept (k : StrideKnobs) (s : PrefStride) (owner : ℕ → ℤ) : Prop where
  hits : ∀ tid tag i, Describes k s owner tid tag i → s.findRegion k tid tag = some i
  unique : ∀ tid tag i j, Describes k s owner tid tag i → Describes k s owner tid tag j → i = j

/-- A call keeps the table: what it gives up in a full table is an entry that was accessed longest
ago, and the regions are found afterwards. -/
def Keeps (k : StrideKnobs) (s : PrefStride) (owner : ℕ → ℤ) (x : StrideAccess) : Prop :=
  ∃ s' prefetches, s.train k x = some (s', prefetches) ∧
    (Creates k s x → (∀ i < k.tableN, (s.region i).valid = true) → ∀ v, s.victim k = some v →
      ∀ i < k.tableN, (s.region v).lastAccess ≤ (s.region i).lastAccess) ∧
    RegionsKept k s' (ownerAfter k s owner x)

/-- A call that makes a new entry finds a table that is not empty; if it is full, all entries were
accessed at the same time.  With thread indexing, the thread id that happens to stand in the entry
that is taken (the first one that is free, or the first one of a full table) is the right one. -/
def Sound (k : StrideKnobs) (s : PrefStride) (x : StrideAccess) : Prop :=
  Creates k s x → 0 < k.tableN ∧
    ((∀ i < k.tableN, (s.region i).valid = true) →
      ∀ i < k.tableN, ∀ j < k.tableN, (s.region i).lastAccess = (s.region j).lastAccess) ∧
    (k.threadIndex = true → (s.region ((firstFree k s).getD 0)).tid = x.tid)

instance sound_decidable (k : StrideKnobs) (s : PrefStride) (x : StrideAccess) :
    Decidable (Sound k s x) := by
  unfold Sound
  infer_instance

/-- The runs in which every call is sound, from new tables. -/
inductive SoundRun (k : StrideKnobs) : PrefStride → (ℕ → ℤ) → Prop
  | init (uninit : PrefStride) (owner : ℕ → ℤ) : SoundRun k (PrefStride.init uninit) owner
  | train {s s' : PrefStride} {owner : ℕ → ℤ} {x : StrideAccess} {prefetches : List Addr}
      (h : SoundRun k s owner) (hsound : Sound k s x)
      (htrain : s.train k x = some (s', prefetches)) : SoundRun k s' (ownerAfter k s owner x)

/-! ## What a call does -/

/-- When all entries were accessed at the same time, the search keeps the first one. -/
theorem victimFrom_equal {l : List ℕ} {j : ℕ} (hvalid : ∀ i ∈ l, (s.region i).valid = true)
    (hequal : ∀ i ∈ l, (s.region j).lastAccess = (s.region i).lastAccess) :
    s.victimFrom (some j) l = some j := by
  induction l with
  | nil => rfl
  | cons ii l ih =>
      have hii := hvalid ii List.mem_cons_self
      unfold PrefStride.victimFrom
      rw [if_neg (Bool.eq_false_iff.not.mpr (not_not.mpr hii))]
      dsimp only
      rw [hequal ii List.mem_cons_self, if_neg (BitVec.lt_irrefl _)]
      exact ih (fun i hi => hvalid i (List.mem_cons_of_mem _ hi)) fun i hi =>
        hequal i (List.mem_cons_of_mem _ hi)

/-- The entry that is taken. -/
theorem victim_eq (hpos : 0 < k.tableN) (hequal : (∀ i < k.tableN, (s.region i).valid = true) →
    ∀ i < k.tableN, ∀ j < k.tableN, (s.region i).lastAccess = (s.region j).lastAccess) :
    s.victim k = some ((firstFree k s).getD 0) ∧ (firstFree k s).getD 0 < k.tableN := by
  cases hfree : firstFree k s with
  | some v =>
      exact ⟨victimFrom_free none hfree, List.mem_range.mp (List.mem_of_find?_eq_some hfree)⟩
  | none =>
      have hfull := firstFree_eq_none.mp hfree
      obtain ⟨n, hn⟩ : ∃ n, k.tableN = n + 1 := ⟨k.tableN - 1, by omega⟩
      refine ⟨?_, hpos⟩
      unfold PrefStride.victim
      rw [hn, List.range_succ_eq_map]
      unfold PrefStride.victimFrom
      rw [if_neg (Bool.eq_false_iff.not.mpr (not_not.mpr (hfull 0 hpos)))]
      dsimp only
      refine victimFrom_equal (fun i hi => ?_) fun i hi => ?_
      · obtain ⟨m, hm, rfl⟩ := List.mem_map.mp hi
        have hlt := List.mem_range.mp hm
        exact hfull _ (by omega)
      · obtain ⟨m, hm, rfl⟩ := List.mem_map.mp hi
        have hlt := List.mem_range.mp hm
        exact hequal hfull 0 hpos _ (by omega)

/-- What a call does to the region table. -/
theorem train_cases (htrain : s.train k x = some (s', prefetches)) :
    (¬ Creates k s x ∧ ∀ i, (s'.region i).tid = (s.region i).tid ∧
        (s'.region i).tag = (s.region i).tag ∧ (s'.region i).valid = (s.region i).valid) ∨
      Creates k s x ∧ ∃ v, s.victim k = some v ∧ s'.region = Function.update s.region v
        { s.region v with
          tag := x.lineAddr >>> k.regionBits, valid := true, lastAccess := x.cycle.setWidth 32 } := by
  unfold PrefStride.train at htrain
  dsimp only at htrain
  cases hfind : s.findRegion k x.tid (x.lineAddr >>> k.regionBits) with
  | none =>
      rw [hfind] at htrain
      dsimp only at htrain
      cases hhit : x.l2Hit with
      | true =>
          rw [hhit] at htrain
          cases htrain
          refine Or.inl ⟨fun hcreates => ?_, fun i => ⟨rfl, rfl, rfl⟩⟩
          rw [hcreates.2] at hhit
          cases hhit
      | false =>
          rw [hhit] at htrain
          cases hvictim : s.victim k with
          | none =>
              rw [hvictim] at htrain
              cases htrain
          | some v =>
              rw [hvictim] at htrain
              cases htrain
              exact Or.inr ⟨⟨hfind, hhit⟩, v, rfl, rfl⟩
  | some j =>
      rw [hfind] at htrain
      cases htrain
      refine Or.inl ⟨fun hcreates => ?_, fun i => ?_⟩
      · rw [hcreates.1] at hfind
        cases hfind
      · by_cases hi : i = j
        · subst hi
          dsimp only
          rw [Function.update_self]
          exact ⟨rfl, rfl, rfl⟩
        · dsimp only
          rw [Function.update_of_ne hi]
          exact ⟨rfl, rfl, rfl⟩

/-- A call returns unless it makes a new entry in an empty table. -/
theorem train_isSome (h : Creates k s x → ∃ v, s.victim k = some v) :
    ∃ s' prefetches, s.train k x = some (s', prefetches) := by
  unfold PrefStride.train
  dsimp only
  cases hfind : s.findRegion k x.tid (x.lineAddr >>> k.regionBits) with
  | none =>
      dsimp only
      cases hhit : x.l2Hit with
      | true => exact ⟨_, _, rfl⟩
      | false =>
          obtain ⟨v, hv⟩ := h ⟨hfind, hhit⟩
          rw [hv]
          exact ⟨_, _, rfl⟩
  | some j => exact ⟨_, _, rfl⟩

/-! ## All runs -/

/-- The thread ids of the entries are those of the threads that made them, and no two entries are
for the same region. -/
structure Owned (k : StrideKnobs) (s : PrefStride) (owner : ℕ → ℤ) : Prop where
  tid : ∀ i < k.tableN, (s.region i).valid = true → k.threadIndex = true →
    (s.region i).tid = owner i
  unique : ∀ tid tag i j, Describes k s owner tid tag i → Describes k s owner tid tag j → i = j

/-- An entry that describes a region is found. -/
theorem Owned.matches_of_describes (h : Owned k s owner) {tid : ℤ} {tag : Addr} {i : ℕ}
    (hi : Describes k s owner tid tag i) : Matches k s tid tag i := by
  obtain ⟨hlt, hvalid, htag, howner⟩ := hi
  refine ⟨fun hindex => ?_, htag.symm, hvalid⟩
  rw [h.tid i hlt hvalid hindex]
  exact (howner hindex).symm

/-- A region that matches describes the thread and the tag that own it. -/
theorem Owned.describes_of_matches (h : Owned k s owner) {tid : ℤ} {tag : Addr} {i : ℕ}
    (hlt : i < k.tableN) (hi : Matches k s tid tag i) : Describes k s owner tid tag i := by
  obtain ⟨htid, htag, hvalid⟩ := hi
  refine ⟨hlt, hvalid, htag.symm, fun hindex => ?_⟩
  rw [← h.tid i hlt hvalid hindex]
  exact (htid hindex).symm

/-- Owned regions are kept apart. -/
theorem Owned.kept (h : Owned k s owner) : RegionsKept k s owner := by
  refine ⟨fun tid tag i hi => ?_, h.unique⟩
  cases hfind : s.findRegion k tid tag with
  | none => exact absurd (h.matches_of_describes hi) (findRegion_eq_none.mp hfind i hi.1)
  | some j =>
      obtain ⟨hlt, hj⟩ := findRegion_some hfind
      rw [h.unique tid tag j i (h.describes_of_matches hlt hj) hi]

/-- The new table has no region to own. -/
theorem owned_init (uninit : PrefStride) (owner : ℕ → ℤ) :
    Owned k (PrefStride.init uninit) owner := by
  refine ⟨fun i _ hvalid => ?_, fun tid tag i j hi => ?_⟩
  · cases hvalid
  · cases hi.2.1

/-- A sound call keeps the entries apart. -/
theorem Owned.train (h : Owned k s owner) (hsound : Sound k s x)
    (htrain : s.train k x = some (s', prefetches)) : Owned k s' (ownerAfter k s owner x) := by
  rcases train_cases htrain with ⟨hnot, hsame⟩ | ⟨hcreates, v, hv, hregion⟩
  · unfold ownerAfter
    rw [if_neg hnot]
    have hdescribes : ∀ tid tag i,
        Describes k s' owner tid tag i ↔ Describes k s owner tid tag i := by
      intro tid tag i
      unfold Describes
      rw [(hsame i).2.1, (hsame i).2.2]
    refine ⟨fun i hi hvalid hindex => ?_, fun tid tag i j hi hj => ?_⟩
    · rw [(hsame i).1]
      rw [(hsame i).2.2] at hvalid
      exact h.tid i hi hvalid hindex
    · exact h.unique tid tag i j ((hdescribes tid tag i).mp hi) ((hdescribes tid tag j).mp hj)
  · obtain ⟨hpos, hequal, htid⟩ := hsound hcreates
    have htaken := (victim_eq hpos hequal).1
    rw [hv] at htaken
    have howner : ownerAfter k s owner x = Function.update owner v x.tid := by
      unfold ownerAfter
      rw [if_pos hcreates, hv]
    rw [howner]
    -- an entry other than the new one does not describe the region of the access
    have hother : ∀ tid tag i, i ≠ v →
        (Describes k s' (Function.update owner v x.tid) tid tag i ↔
          Describes k s owner tid tag i) := by
      intro tid tag i hi
      unfold Describes
      rw [hregion, Function.update_of_ne hi, Function.update_of_ne hi]
    have hnew : ∀ tid tag, Describes k s' (Function.update owner v x.tid) tid tag v →
        tag = x.lineAddr >>> k.regionBits ∧ (k.threadIndex = true → tid = x.tid) := by
      intro tid tag hdescribes
      obtain ⟨-, -, htag, htid⟩ := hdescribes
      rw [hregion, Function.update_self] at htag
      rw [Function.update_self] at htid
      exact ⟨htag.symm, fun hindex => (htid hindex).symm⟩
    have hapart : ∀ tid tag i, i ≠ v →
        Describes k s' (Function.update owner v x.tid) tid tag v →
          ¬ Describes k s' (Function.update owner v x.tid) tid tag i := by
      intro tid tag i hi hv' hdescribes
      obtain ⟨rfl, htid'⟩ := hnew tid tag hv'
      have hold := (hother tid _ i hi).mp hdescribes
      refine findRegion_eq_none.mp hcreates.1 i hold.1 ?_
      refine h.matches_of_describes ⟨hold.1, hold.2.1, hold.2.2.1, fun hindex => ?_⟩
      rw [← htid' hindex]
      exact hold.2.2.2 hindex
    refine ⟨fun i hi hvalid hindex => ?_, fun tid tag i j hi hj => ?_⟩
    · rw [hregion] at hvalid ⊢
      by_cases hiv : i = v
      · subst hiv
        rw [Function.update_self, Function.update_self]
        rw [Option.some.inj htaken]
        exact htid hindex
      · rw [Function.update_of_ne hiv] at hvalid ⊢
        rw [Function.update_of_ne hiv]
        exact h.tid i hi hvalid hindex
    · by_cases hiv : i = v <;> by_cases hjv : j = v
      · rw [hiv, hjv]
      · subst hiv
        exact absurd hj (hapart tid tag j hjv hi)
      · subst hjv
        exact absurd hi (hapart tid tag i hiv hj)
      · exact h.unique tid tag i j ((hother tid tag i hiv).mp hi) ((hother tid tag j hjv).mp hj)

/-- Every sound run owns its regions. -/
theorem owned_of_soundRun (h : SoundRun k s owner) : Owned k s owner := by
  induction h with
  | init uninit owner => exact owned_init uninit owner
  | train _ hsound htrain ih => exact ih.train hsound htrain

/-- In every run whose calls are sound, with thread indexing or without it, every access to a
region that has an entry finds it and no two entries describe the same region; and the next call
keeps this, and gives up an entry that was accessed longest ago, exactly if it is sound. -/
theorem region_table_kept_iff (h : SoundRun k s owner) (x : StrideAccess) :
    RegionsKept k s owner ∧ (Keeps k s owner x ↔ Sound k s x) := by
  have howned := owned_of_soundRun h
  refine ⟨howned.kept, ?_, fun hsound => ?_⟩
  · rintro ⟨s', prefetches, htrain, hleast, hkept⟩ hcreates
    obtain ⟨hnot, -⟩ | ⟨-, v, hv, hregion⟩ := train_cases htrain
    · exact absurd hcreates hnot
    have hpos : 0 < k.tableN := by
      rcases Nat.eq_zero_or_pos k.tableN with hzero | hpos
      · unfold PrefStride.victim at hv
        rw [hzero] at hv
        cases hv
      · exact hpos
    have hequal : (∀ i < k.tableN, (s.region i).valid = true) →
        ∀ i < k.tableN, ∀ j < k.tableN, (s.region i).lastAccess = (s.region j).lastAccess := by
      intro hfull
      obtain ⟨w, -, hw, hmost⟩ := victim_full hpos hfull
      obtain rfl := Option.some.inj (hv.symm.trans hw)
      have hsame : ∀ i < k.tableN, (s.region i).lastAccess = (s.region v).lastAccess := by
        intro i hi
        have hle := hmost i hi
        have hge := hleast hcreates hfull v hv i hi
        bv_omega
      exact fun i hi j hj => (hsame i hi).trans (hsame j hj).symm
    obtain ⟨htaken, hlt⟩ := victim_eq hpos hequal
    refine ⟨hpos, hequal, fun hindex => ?_⟩
    rw [hv] at htaken
    rw [← Option.some.inj htaken] at hlt ⊢
    have howner : ownerAfter k s owner x v = x.tid := by
      unfold ownerAfter
      rw [if_pos hcreates, hv]
      exact Function.update_self ..
    have hfound := hkept.hits x.tid (x.lineAddr >>> k.regionBits) v
      ⟨hlt, by rw [hregion, Function.update_self], by rw [hregion, Function.update_self],
        fun _ => howner⟩
    have htid := (findRegion_some hfound).2.1 hindex
    rw [hregion, Function.update_self] at htid
    exact htid.symm
  · have hvictim : Creates k s x → ∃ v, s.victim k = some v := fun hcreates =>
      ⟨_, (victim_eq (hsound hcreates).1 (hsound hcreates).2.1).1⟩
    obtain ⟨s', prefetches, htrain⟩ := train_isSome hvictim
    refine ⟨s', prefetches, htrain, fun hcreates hfull v hv i hi => ?_,
      (howned.train hsound htrain).kept⟩
    obtain ⟨hpos, hequal, -⟩ := hsound hcreates
    obtain ⟨htaken, hlt⟩ := victim_eq hpos hequal
    rw [hv] at htaken
    have hvlt : v < k.tableN := Option.some.inj htaken ▸ hlt
    rw [hequal hfull v hvlt i hi]
    bv_omega

/-- The default configuration with two entries, for lines of 64 bytes. -/
def twoEntries : StrideKnobs where
  tableN := 2
  regionBits := 16
  degree := 4
  distance := 16
  startdistance := 1
  singleThresh := 6
  multiThresh := 6
  singleStrideMode := false
  threadIndex := false
  lineBits := 6

/-- Tables whose memory was zero. -/
def zeroTables : PrefStride where
  region := fun _ => ⟨0, 0, false, 0⟩
  index := fun _ =>
    ⟨false, false, 0, (Fin.last 1).rev, 0, fun _ => 0, fun _ => 0, fun _ => 0, 0, 0, 0,
      (Fin.last 1).rev, 0, 0⟩

/-- A miss of thread 0 in a region, in a cycle. -/
def missIn (region : Addr) (cycle : Counter) : StrideAccess where
  tid := 0
  lineAddr := region <<< 16
  l2Hit := false
  cycle := cycle
  accept := fun _ => true

/-- Misses in three regions in one cycle: the third takes the entry of the first, the regions 6
and 7 are found in their entries, and a fourth miss keeps the table. -/
theorem region_table_kept_iff_third_region :
    ∃ s owner, [missIn 5 1, missIn 6 1, missIn 7 1].foldlM
        (fun s x => (s.train twoEntries x).map Prod.fst) (PrefStride.init zeroTables) = some s ∧
      (s.findRegion twoEntries 0 5, s.findRegion twoEntries 0 6, s.findRegion twoEntries 0 7) =
        (none, some 1, some 0) ∧
      RegionsKept twoEntries s owner ∧ Keeps twoEntries s owner (missIn 5 2) := by
  have hfirst : SoundRun twoEntries _ _ :=
    .train (x := missIn 5 1) (.init zeroTables fun _ => 0) (by decide +kernel) rfl
  have hsecond : SoundRun twoEntries _ _ :=
    .train (x := missIn 6 1) hfirst (by decide +kernel) rfl
  have hthird : SoundRun twoEntries _ _ :=
    .train (x := missIn 7 1) hsecond (by decide +kernel) rfl
  obtain ⟨hkept, hiff⟩ := region_table_kept_iff hthird (missIn 5 2)
  exact ⟨_, _, rfl, by decide +kernel, hkept, hiff.mpr (by decide +kernel)⟩

/-- The tables after misses in the regions 5 and 6. -/
def twoRegions : PrefStride :=
  ((PrefStride.init zeroTables).createNewentry 0 ((5 <<< 16) >>> 6) 5 1).createNewentry 1
    ((6 <<< 16) >>> 6) 6 2

/-- A miss in a third region takes the entry of region 6, although region 5 was accessed longer
ago. -/
theorem victim_is_latest :
    ((PrefStride.init zeroTables).train twoEntries (missIn 5 1)).bind
        (fun y => (y.1.train twoEntries (missIn 6 2)).map Prod.fst) = some twoRegions ∧
      twoRegions.victim twoEntries = some 1 ∧
      ¬ Keeps twoEntries twoRegions (fun _ => 0) (missIn 7 3) := by
  refine ⟨rfl, by decide, ?_⟩
  rintro ⟨s', prefetches, -, hleast, -⟩
  have hle := hleast (by decide) (by decide) 1 (by decide) 0 (by decide)
  revert hle
  decide

end PrefStride

end MacSim.Analysis
