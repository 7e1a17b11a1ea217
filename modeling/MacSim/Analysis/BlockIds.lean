import MacSim.Model.MultiKeyMap

/-!
# The block ids of processes

`delete_table` frees the table of a process and leaves the pointer to it in the outer table.  The
map keeps its law as long as no call names a process whose table has been deleted.
-/

set_option autoImplicit false

namespace MacSim.Analysis

open MacSim.Model MacSim.Model.MultiKeyMap MacSim.Computation

namespace MultiKeyMap

/-! ## The law -/

/-- The id of the last insertion of the two keys that no deletion of the first one follows. -/
def lastId (log : List Answer) (key₁ key₂ : ℤ) : Option ℤ :=
  log.foldl
    (fun last y =>
      match y with
      | .inserted k₁ k₂ id => if k₁ = key₁ ∧ k₂ = key₂ then some id else last
      | .found _ _ _ => last
      | .deleted k₁ => if k₁ = key₁ then none else last)
    none

/-- The id that an insertion returned. -/
def newId : Answer → Option ℤ
  | .inserted _ _ id => some id
  | .found _ _ _ => none
  | .deleted _ => none

/-- A search returns the id of the last insertion, and `-1` when there is none. -/
def Right (before : List Answer) : Answer → Prop
  | .found key₁ key₂ id => id = (lastId before key₁ key₂).getD (-1)
  | .inserted _ _ _ => True
  | .deleted _ => True

/-- All calls return, what the searches return is right, and no id is given twice. -/
def BlockIdLaw (calls : List Call) : Prop :=
  ∃ m log, serveAll calls = some (m, log) ∧ AtEach Right log ∧ (log.filterMap newId).Nodup

/-! ## When it holds -/

/-- The process a call is about. -/
def processOf : Call → ℤ
  | .insert key₁ _ => key₁
  | .find key₁ _ => key₁
  | .deleteTable key₁ => key₁

def isInsert : Call → Bool
  | .insert _ _ => true
  | .find _ _ => false
  | .deleteTable _ => false

/-- The process had a block inserted. -/
def HasTable (calls : List Call) (key₁ : ℤ) : Prop := ∃ key₂, Call.insert key₁ key₂ ∈ calls

/-- The table of the process has not been deleted, what is deleted was made, and there is an id
left for what is inserted. -/
def Allowed (before : List Call) (x : Call) : Prop :=
  Call.deleteTable (processOf x) ∉ before ∧
    (∀ key₁, x = .deleteTable key₁ → HasTable before key₁) ∧
    (isInsert x = true → before.countP isInsert + 1 < 2 ^ 31)

/-- No process id is used again after its table was deleted, only tables that were made are
deleted, and there are fewer than `2 ^ 31` insertions. -/
def NoReuse (calls : List Call) : Prop := AtEach Allowed calls

/-! ## What the map holds -/

variable {calls : List Call} {m m' : MultiKeyMap} {log : List Answer} {x : Call} {y : Answer}

/-- The tables after calls that returned: each process that had a block inserted has a table of
its own, which holds the last ids, until it is deleted. -/
structure TableBooks (calls : List Call) (m : MultiKeyMap) (log : List Answer) : Prop where
  size : m.size = calls.countP isInsert
  ids : ∀ id ∈ log.filterMap newId, id < m.size
  nodup : (log.filterMap newId).Nodup
  made : ∀ key₁, (∃ p, m.table key₁ = some p) ↔ HasTable calls key₁
  allocated : ∀ key₁ p, m.table key₁ = some p → p < m.allocated
  own : ∀ key₁ k₁ p, m.table key₁ = some p → m.table k₁ = some p → k₁ = key₁
  heap : ∀ key₁ p, m.table key₁ = some p →
    m.heap p = if Call.deleteTable key₁ ∈ calls then none else some (lastId log key₁)
  deleted : ∀ key₁, Call.deleteTable key₁ ∈ calls → HasTable calls key₁
  missing : ∀ key₁, m.table key₁ = none → lastId log key₁ = fun _ => none
  right : AtEach Right log

/-- At first the map is empty. -/
theorem tableBooks_new : TableBooks [] MultiKeyMap.new [] where
  size := rfl
  ids := fun _ h => by cases h
  nodup := List.nodup_nil
  made := fun _ => iff_of_false (fun ⟨_, h⟩ => by cases h) fun ⟨_, h⟩ => by cases h
  allocated := fun _ _ h => by cases h
  own := fun _ _ _ h => by cases h
  heap := fun _ _ h => by cases h
  deleted := fun _ h => by cases h
  missing := fun _ _ => rfl
  right := atEach_nil

/-! ## The last ids -/

/-- After an insertion the last id of a pair is the one inserted. -/
theorem lastId_inserted (key₁ key₂ id : ℤ) :
    lastId (log ++ [.inserted key₁ key₂ id]) =
      Function.update (lastId log) key₁ (Function.update (lastId log key₁) key₂ (some id)) := by
  funext k₁ k₂
  unfold lastId
  rw [List.foldl_append]
  by_cases hk₁ : k₁ = key₁
  · subst hk₁
    rw [Function.update_self]
    by_cases hk₂ : k₂ = key₂
    · subst hk₂
      rw [Function.update_self]
      exact if_pos ⟨rfl, rfl⟩
    · rw [Function.update_of_ne hk₂]
      exact if_neg fun h => hk₂ h.2.symm
  · rw [Function.update_of_ne hk₁]
    exact if_neg fun h => hk₁ h.1.symm

/-- A search changes no last id. -/
theorem lastId_found (key₁ key₂ id : ℤ) :
    lastId (log ++ [.found key₁ key₂ id]) = lastId log := by
  funext k₁ k₂
  unfold lastId
  rw [List.foldl_append]
  rfl

/-- A deletion takes the last ids of a table away. -/
theorem lastId_deleted (key₁ : ℤ) :
    lastId (log ++ [.deleted key₁]) = Function.update (lastId log) key₁ fun _ => none := by
  funext k₁ k₂
  unfold lastId
  rw [List.foldl_append]
  by_cases hk₁ : k₁ = key₁
  · subst hk₁
    rw [Function.update_self]
    exact if_pos rfl
  · rw [Function.update_of_ne hk₁]
    exact if_neg fun h => hk₁ h.symm

/-- A table exists after a call when it existed or the call inserted into it. -/
theorem hasTable_append (key₁ : ℤ) :
    HasTable (calls ++ [x]) key₁ ↔ HasTable calls key₁ ∨ ∃ key₂, x = .insert key₁ key₂ := by
  unfold HasTable
  simp only [List.mem_append, List.mem_singleton, exists_or]
  refine or_congr_right (exists_congr fun _ => ⟨Eq.symm, Eq.symm⟩)

/-! ## One call -/

/-- A call that is allowed returns, and one that is not does not. -/
def Answered (calls : List Call) (m : MultiKeyMap) (log : List Answer) (x : Call) : Prop :=
  (Allowed calls x ∧ ∃ m' y, m.serve x = some (m', y) ∧ TableBooks (calls ++ [x]) m' (log ++ [y])) ∨
    (¬ Allowed calls x ∧ m.serve x = none)

/-- A deleted table leaves its pointer. -/
theorem TableBooks.exists_of_deleted (h : TableBooks calls m log) {key₁ : ℤ}
    (hdeleted : Call.deleteTable key₁ ∈ calls) : ∃ p, m.table key₁ = some p ∧ m.heap p = none := by
  obtain ⟨p, hp⟩ := (h.made key₁).mpr (h.deleted key₁ hdeleted)
  refine ⟨p, hp, ?_⟩
  rw [h.heap key₁ p hp, if_pos hdeleted]

/-- A search that is allowed returns, and one that is not does not. -/
theorem TableBooks.answered_find (h : TableBooks calls m log) (key₁ key₂ : ℤ) :
    Answered calls m log (.find key₁ key₂) := by
  by_cases hdeleted : Call.deleteTable key₁ ∈ calls
  · refine Or.inr ⟨fun hallowed => hallowed.1 hdeleted, ?_⟩
    obtain ⟨p, hp, hfreed⟩ := h.exists_of_deleted hdeleted
    unfold MultiKeyMap.serve MultiKeyMap.find
    dsimp only
    rw [hp]
    dsimp only
    rw [hfreed]
    rfl
  · have hfind : m.find key₁ key₂ = some ((lastId log key₁ key₂).getD (-1)) := by
      unfold MultiKeyMap.find
      cases htable : m.table key₁ with
      | none => rw [h.missing key₁ htable, Option.getD_none]
      | some p =>
          dsimp only
          rw [h.heap key₁ p htable, if_neg hdeleted, Option.map_some]
    have hallowed : Allowed calls (.find key₁ key₂) :=
      ⟨hdeleted, fun _ hx => Call.noConfusion hx, fun hx => Bool.noConfusion hx⟩
    refine Or.inl ⟨hallowed, m, .found key₁ key₂ ((lastId log key₁ key₂).getD (-1)), ?_, ?_⟩
    · unfold MultiKeyMap.serve
      dsimp only
      rw [hfind]
      rfl
    have hkept : ∀ k₁, Call.deleteTable k₁ ∈ calls ++ [.find key₁ key₂] ↔
        Call.deleteTable k₁ ∈ calls := fun k₁ => by simp
    have hmade : ∀ k₁, HasTable (calls ++ [.find key₁ key₂]) k₁ ↔ HasTable calls k₁ := by
      intro k₁
      rw [hasTable_append]
      exact or_iff_left fun ⟨_, hx⟩ => by cases hx
    have hids : (log ++ [Answer.found key₁ key₂ ((lastId log key₁ key₂).getD (-1))]).filterMap newId =
        log.filterMap newId := by
      rw [List.filterMap_append]
      exact List.append_nil _
    refine ⟨?_, ?_, ?_, fun k₁ => ?_, h.allocated, h.own, fun k₁ p hp => ?_, fun k₁ hk₁ => ?_,
      fun k₁ hk₁ => ?_, atEach_append.mpr ⟨h.right, rfl⟩⟩
    · rw [h.size, List.countP_append]
      rfl
    · rw [hids]
      exact h.ids
    · rw [hids]
      exact h.nodup
    · rw [hmade]
      exact h.made k₁
    · rw [lastId_found]
      simp only [hkept]
      exact h.heap k₁ p hp
    · rw [hmade]
      exact h.deleted k₁ ((hkept k₁).mp hk₁)
    · rw [lastId_found]
      exact h.missing k₁ hk₁

/-- A deletion that is allowed returns, and one that is not does not. -/
theorem TableBooks.answered_delete (h : TableBooks calls m log) (key₁ : ℤ) :
    Answered calls m log (.deleteTable key₁) := by
  by_cases hdeleted : Call.deleteTable key₁ ∈ calls
  · refine Or.inr ⟨fun hallowed => hallowed.1 hdeleted, ?_⟩
    obtain ⟨p, hp, hfreed⟩ := h.exists_of_deleted hdeleted
    unfold MultiKeyMap.serve MultiKeyMap.deleteTable
    dsimp only
    rw [hp]
    dsimp only
    rw [hfreed]
    rfl
  cases htable : m.table key₁ with
  | none =>
      have hnone : ¬ HasTable calls key₁ := fun hhas => by
        obtain ⟨p, hp⟩ := (h.made key₁).mpr hhas
        rw [htable] at hp
        cases hp
      refine Or.inr ⟨fun hallowed => hnone (hallowed.2.1 key₁ rfl), ?_⟩
      unfold MultiKeyMap.serve MultiKeyMap.deleteTable
      dsimp only
      rw [htable]
      rfl
  | some p =>
      have hhas : HasTable calls key₁ := (h.made key₁).mp ⟨p, htable⟩
      have hallowed : Allowed calls (.deleteTable key₁) := by
        refine ⟨hdeleted, fun k₁ hk₁ => ?_, fun hx => Bool.noConfusion hx⟩
        cases hk₁
        exact hhas
      refine Or.inl ⟨hallowed, { m with heap := Function.update m.heap p none }, .deleted key₁,
        ?_, ?_⟩
      · unfold MultiKeyMap.serve MultiKeyMap.deleteTable
        dsimp only
        rw [htable]
        dsimp only
        rw [h.heap key₁ p htable, if_neg hdeleted]
        rfl
      have hkept : ∀ k₁, Call.deleteTable k₁ ∈ calls ++ [.deleteTable key₁] ↔
          Call.deleteTable k₁ ∈ calls ∨ k₁ = key₁ := fun k₁ => by simp
      have hmade : ∀ k₁, HasTable (calls ++ [.deleteTable key₁]) k₁ ↔ HasTable calls k₁ := by
        intro k₁
        rw [hasTable_append]
        exact or_iff_left fun ⟨_, hx⟩ => Call.noConfusion hx
      have hids : (log ++ [Answer.deleted key₁]).filterMap newId = log.filterMap newId := by
        rw [List.filterMap_append]
        exact List.append_nil _
      refine ⟨?_, ?_, ?_, fun k₁ => ?_, h.allocated, h.own, fun k₁ q hq => ?_, fun k₁ hk₁ => ?_,
        fun k₁ hk₁ => ?_, atEach_append.mpr ⟨h.right, trivial⟩⟩
      · rw [List.countP_append]
        exact h.size
      · rw [hids]
        exact h.ids
      · rw [hids]
        exact h.nodup
      · rw [hmade]
        exact h.made k₁
      · change Function.update m.heap p none q = _
        rw [lastId_deleted]
        simp only [hkept]
        by_cases hk₁ : k₁ = key₁
        · subst hk₁
          obtain rfl := Option.some.inj (htable.symm.trans hq)
          rw [Function.update_self, if_pos (Or.inr rfl)]
        · have hqp : q ≠ p := by
            rintro rfl
            exact hk₁ (h.own key₁ k₁ q htable hq)
          rw [Function.update_of_ne hqp, Function.update_of_ne hk₁, h.heap k₁ q hq]
          exact if_congr (or_iff_left hk₁).symm rfl rfl
      · rw [hmade]
        rcases (hkept k₁).mp hk₁ with hold | rfl
        · exact h.deleted k₁ hold
        · exact hhas
      · have hne : k₁ ≠ key₁ := by
          rintro rfl
          rw [htable] at hk₁
          cases hk₁
        rw [lastId_deleted, Function.update_of_ne hne]
        exact h.missing k₁ hk₁

/-- The tables after the id is stored. -/
theorem TableBooks.store (h : TableBooks calls m log) {key₁ : ℤ} (key₂ : ℤ)
    (hlive : Call.deleteTable key₁ ∉ calls) : ∃ m', m.store key₁ key₂ = some m' ∧
      m'.size = m.size ∧
      (∀ k₁, (∃ p, m'.table k₁ = some p) ↔ (∃ p, m.table k₁ = some p) ∨ k₁ = key₁) ∧
      (∀ k₁ p, m'.table k₁ = some p → p < m'.allocated) ∧
      (∀ k₁ k p, m'.table k₁ = some p → m'.table k = some p → k = k₁) ∧
      ∀ k₁ p, m'.table k₁ = some p → m'.heap p = if Call.deleteTable k₁ ∈ calls then none else
        some (Function.update (lastId log) key₁
          (Function.update (lastId log key₁) key₂ (some m.size)) k₁) := by
  cases htable : m.table key₁ with
  | none =>
      refine ⟨{ m with
          table := Function.update m.table key₁ (some m.allocated)
          heap := Function.update m.heap m.allocated
            (some (Function.update (fun _ => none) key₂ (some m.size)))
          allocated := m.allocated + 1 }, ?_, rfl, fun k₁ => ?_, fun k₁ p hp => ?_,
        fun k₁ k p hp hk => ?_, fun k₁ p hp => ?_⟩
      · unfold MultiKeyMap.store
        rw [htable]
      · dsimp only
        by_cases hk₁ : k₁ = key₁
        · subst hk₁
          rw [Function.update_self]
          exact iff_of_true ⟨_, rfl⟩ (Or.inr rfl)
        · rw [Function.update_of_ne hk₁]
          exact (or_iff_left hk₁).symm
      · dsimp only at hp ⊢
        by_cases hk₁ : k₁ = key₁
        · subst hk₁
          rw [Function.update_self] at hp
          cases hp
          omega
        · rw [Function.update_of_ne hk₁] at hp
          have := h.allocated k₁ p hp
          omega
      · dsimp only at hp hk
        by_cases hk₁ : k₁ = key₁ <;> by_cases hkey : k = key₁
        · rw [hk₁, hkey]
        · subst hk₁
          rw [Function.update_self] at hp
          rw [Function.update_of_ne hkey] at hk
          cases hp
          exact absurd (h.allocated k _ hk) (lt_irrefl _)
        · subst hkey
          rw [Function.update_self] at hk
          rw [Function.update_of_ne hk₁] at hp
          cases hk
          exact absurd (h.allocated k₁ _ hp) (lt_irrefl _)
        · rw [Function.update_of_ne hkey] at hk
          rw [Function.update_of_ne hk₁] at hp
          exact h.own k₁ k p hp hk
      · dsimp only at hp ⊢
        by_cases hk₁ : k₁ = key₁
        · subst hk₁
          rw [Function.update_self] at hp
          cases hp
          rw [Function.update_self, Function.update_self, if_neg hlive, h.missing k₁ htable]
        · rw [Function.update_of_ne hk₁] at hp
          have hlt := h.allocated k₁ p hp
          rw [Function.update_of_ne hlt.ne, Function.update_of_ne hk₁]
          exact h.heap k₁ p hp
  | some q =>
      refine ⟨{ m with
          heap := Function.update m.heap q
            (some (Function.update (lastId log key₁) key₂ (some m.size))) }, ?_, rfl,
        fun k₁ => ?_, h.allocated, h.own, fun k₁ p hp => ?_⟩
      · unfold MultiKeyMap.store
        rw [htable]
        dsimp only
        rw [h.heap key₁ q htable, if_neg hlive]
        rfl
      · refine (or_iff_left_of_imp ?_).symm
        rintro rfl
        exact ⟨q, htable⟩
      · dsimp only at hp ⊢
        by_cases hk₁ : k₁ = key₁
        · subst hk₁
          obtain rfl := Option.some.inj (htable.symm.trans hp)
          rw [Function.update_self, Function.update_self, if_neg hlive]
        · have hpq : p ≠ q := by
            rintro rfl
            exact hk₁ (h.own key₁ k₁ p htable hp)
          rw [Function.update_of_ne hpq, Function.update_of_ne hk₁]
          exact h.heap k₁ p hp

/-- An insertion that is allowed returns, and one that is not does not. -/
theorem TableBooks.answered_insert (h : TableBooks calls m log) (key₁ key₂ : ℤ) :
    Answered calls m log (.insert key₁ key₂) := by
  by_cases hsize : m.size + 1 < 2 ^ 31
  swap
  · refine Or.inr ⟨fun hallowed => hsize ?_, ?_⟩
    · have hcount := hallowed.2.2 rfl
      rw [h.size]
      exact_mod_cast hcount
    · unfold MultiKeyMap.serve MultiKeyMap.insert
      dsimp only
      rw [if_neg hsize]
      rfl
  by_cases hdeleted : Call.deleteTable key₁ ∈ calls
  · refine Or.inr ⟨fun hallowed => hallowed.1 hdeleted, ?_⟩
    obtain ⟨p, hp, hfreed⟩ := h.exists_of_deleted hdeleted
    unfold MultiKeyMap.serve MultiKeyMap.insert MultiKeyMap.store
    dsimp only
    rw [if_pos hsize, hp]
    dsimp only
    rw [hfreed]
    rfl
  have hallowed : Allowed calls (.insert key₁ key₂) := by
    refine ⟨hdeleted, fun _ hx => Call.noConfusion hx, fun _ => ?_⟩
    rw [h.size] at hsize
    exact_mod_cast hsize
  obtain ⟨m', hstore, hsame, hmade', hallocated', hown', hheap'⟩ := h.store key₂ hdeleted
  refine Or.inl ⟨hallowed, { m' with size := m.size + 1 }, .inserted key₁ key₂ m.size, ?_, ?_⟩
  · unfold MultiKeyMap.serve MultiKeyMap.insert
    dsimp only
    rw [if_pos hsize, hstore]
    rfl
  have hkept : ∀ k₁, Call.deleteTable k₁ ∈ calls ++ [.insert key₁ key₂] ↔
      Call.deleteTable k₁ ∈ calls := fun k₁ => by simp
  have hids : (log ++ [Answer.inserted key₁ key₂ m.size]).filterMap newId =
      log.filterMap newId ++ [m.size] := by
    rw [List.filterMap_append]
    rfl
  refine ⟨?_, fun id hid => ?_, ?_, fun k₁ => ?_, hallocated', hown', fun k₁ p hp => ?_,
    fun k₁ hk₁ => ?_, fun k₁ hk₁ => ?_, atEach_append.mpr ⟨h.right, trivial⟩⟩
  · rw [List.countP_append, h.size]
    push_cast
    rfl
  · change id < m.size + 1
    rw [hids, List.mem_append, List.mem_singleton] at hid
    rcases hid with hold | rfl
    · have hlt := h.ids id hold
      omega
    · omega
  · rw [hids]
    refine List.nodup_append.mpr ⟨h.nodup, List.nodup_singleton _, fun id hid new hnew => ?_⟩
    rw [List.mem_singleton.mp hnew]
    exact (h.ids id hid).ne
  · rw [hasTable_append]
    refine (hmade' k₁).trans (or_congr (h.made k₁) ⟨?_, ?_⟩)
    · rintro rfl
      exact ⟨key₂, rfl⟩
    · rintro ⟨_, hx⟩
      cases hx
      rfl
  · rw [lastId_inserted]
    simp only [hkept]
    exact hheap' k₁ p hp
  · rw [hasTable_append]
    exact Or.inl (h.deleted k₁ ((hkept k₁).mp hk₁))
  · have hnone : ¬ ((∃ p, m.table k₁ = some p) ∨ k₁ = key₁) := fun hsome => by
      obtain ⟨p, hp⟩ := (hmade' k₁).mpr hsome
      rw [hp] at hk₁
      cases hk₁
    obtain ⟨hold, hne⟩ := not_or.mp hnone
    rw [lastId_inserted, Function.update_of_ne hne]
    exact h.missing k₁ (Option.eq_none_iff_forall_ne_some.mpr fun p hp => hold ⟨p, hp⟩)

/-- A call that is allowed returns, and one that is not does not. -/
theorem TableBooks.answered (h : TableBooks calls m log) (x : Call) :
    Answered calls m log x := by
  cases x with
  | insert key₁ key₂ => exact h.answered_insert key₁ key₂
  | find key₁ key₂ => exact h.answered_find key₁ key₂
  | deleteTable key₁ => exact h.answered_delete key₁

/-! ## All calls -/

/-- The calls return exactly if all of them are allowed, and the books are kept. -/
theorem serveAll_cases (calls : List Call) :
    (NoReuse calls ∧ ∃ m log, serveAll calls = some (m, log) ∧ TableBooks calls m log) ∨
      (¬ NoReuse calls ∧ serveAll calls = none) := by
  induction calls using List.reverseRecOn with
  | nil => exact Or.inl ⟨atEach_nil, MultiKeyMap.new, [], rfl, tableBooks_new⟩
  | append_singleton calls x ih =>
      unfold NoReuse serveAll at ih ⊢
      rw [atEach_append, serveCalls_append]
      rcases ih with ⟨hcalls, m, log, hserved, hbooks⟩ | ⟨hcalls, hserved⟩
      · rw [hserved, Option.bind_some]
        rcases hbooks.answered x with ⟨hallowed, m', y, hx, hbooks'⟩ | ⟨hallowed, hx⟩
        · refine Or.inl ⟨⟨hcalls, hallowed⟩, m', log ++ [y], ?_, hbooks'⟩
          rw [hx]
          rfl
        · refine Or.inr ⟨fun h => hallowed h.2, ?_⟩
          rw [hx]
          rfl
      · refine Or.inr ⟨fun h => hcalls h.1, ?_⟩
        rw [hserved]
        rfl

/-- The law of the block ids holds of a sequence of calls exactly if no process id is used again
after its table was deleted, only tables that were made are deleted, and the ids do not run out. -/
theorem block_id_law_iff (calls : List Call) : BlockIdLaw calls ↔ NoReuse calls := by
  rcases serveAll_cases calls with ⟨hcalls, m, log, hserved, hbooks⟩ | ⟨hcalls, hserved⟩
  · exact iff_of_true ⟨m, log, hserved, hbooks.right, hbooks.nodup⟩ hcalls
  · refine iff_of_false ?_ hcalls
    rintro ⟨m, log, hlaw, -⟩
    rw [hserved] at hlaw
    cases hlaw

/-- The block of a process is looked up again after the table of the process was deleted. -/
theorem find_after_delete_fails :
    serveAll [.insert 3 0, .deleteTable 3, .find 3 0] = none ∧
      ¬ BlockIdLaw [.insert 3 0, .deleteTable 3, .find 3 0] := by
  have hfails : serveAll [.insert 3 0, .deleteTable 3, .find 3 0] = none := by decide
  refine ⟨hfails, fun ⟨m, log, hserved, _⟩ => ?_⟩
  rw [hfails] at hserved
  cases hserved

end MultiKeyMap

end MacSim.Analysis
