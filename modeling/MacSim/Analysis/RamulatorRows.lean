import MacSim.Model.RamulatorController
import MacSim.Analysis.RamulatorProtocol

/-!
# The table of open rows

The controller keeps its own table of the open rows.  It agrees with the banks of the channel: its
keys are the banks with an open row, each with that row, so that no assertion on the table fails
while commands are issued that fit the channel.
-/

set_option autoImplicit false

namespace MacSim.Analysis.Ramulator

open MacSim.Model.Ramulator MacSim.Model.Ramulator.Ddr3

/-! ## The table as a set of entries -/

section Entries

variable {table : RowTable} {key : List ℤ} {entry : RowEntry}

/-- What is in the table after an insertion was there or is the new entry. -/
theorem mem_of_mem_insert {kv : List ℤ × RowEntry} (h : kv ∈ table.insert key entry) :
    kv = (key, entry) ∨ kv ∈ table := by
  induction table with
  | nil => exact .inl (List.mem_singleton.mp h)
  | cons first rest ih =>
    obtain ⟨k, e⟩ := first
    unfold RowTable.insert at h
    split at h
    · exact .inr h
    · split at h
      · exact List.mem_cons.mp h
      · rcases List.mem_cons.mp h with rfl | h
        · exact .inr (List.mem_cons_self ..)
        · exact (ih h).imp_right (List.mem_cons_of_mem _)

/-- An insertion keeps the entries of the table. -/
theorem mem_insert_of_mem {kv : List ℤ × RowEntry} (h : kv ∈ table) :
    kv ∈ table.insert key entry := by
  induction table with
  | nil => cases h
  | cons first rest ih =>
    obtain ⟨k, e⟩ := first
    unfold RowTable.insert
    split
    · exact h
    · split
      · exact List.mem_cons_of_mem _ h
      · rcases List.mem_cons.mp h with rfl | h
        · exact List.mem_cons_self ..
        · exact List.mem_cons_of_mem _ (ih h)

/-- After an insertion the key is in the table. -/
theorem exists_mem_insert (table : RowTable) (key : List ℤ) (entry : RowEntry) :
    ∃ e, (key, e) ∈ table.insert key entry := by
  induction table with
  | nil => exact ⟨entry, List.mem_singleton_self _⟩
  | cons first rest ih =>
    obtain ⟨k, e⟩ := first
    unfold RowTable.insert
    split
    · rename_i hk
      exact ⟨e, hk ▸ List.mem_cons_self ..⟩
    · split
      · exact ⟨entry, List.mem_cons_self ..⟩
      · obtain ⟨e', he'⟩ := ih
        exact ⟨e', List.mem_cons_of_mem _ he'⟩

/-- A found entry is in the table. -/
theorem mem_of_find (h : table.find key = some entry) : (key, entry) ∈ table := by
  unfold RowTable.find at h
  obtain ⟨kv, hkv, rfl⟩ := Option.map_eq_some_iff.mp h
  have hkey : kv.1 = key := by simpa using List.find?_some hkv
  rw [← hkey]
  exact List.mem_of_find?_eq_some hkv

/-- A key of the table is found. -/
theorem exists_find_of_mem (h : (key, entry) ∈ table) : ∃ e, table.find key = some e := by
  unfold RowTable.find
  cases hfind : List.find? (fun kv => decide (kv.1 = key)) table with
  | none => exact absurd (List.find?_eq_none.mp hfind _ h) (by simp)
  | some kv => exact ⟨kv.2, rfl⟩

end Entries

/-! ## Agreement with the banks -/

/-- The coordinates of a bank. -/
def bankKey (id : ℤ) (r b : ℕ) : List ℤ := [id, r, b]

/-- The entries of the table are the open rows of the channel. -/
structure Mirrors (ranks banks : ℕ) (id : ℤ) (v : Banks) (table : RowTable) : Prop where
  opened : ∀ kv ∈ table, ∃ r < ranks, ∃ b < banks,
    kv.1 = bankKey id r b ∧ v.row r b = some kv.2.row
  listed : ∀ r < ranks, ∀ b < banks, v.row r b ≠ none → ∃ e, (bankKey id r b, e) ∈ table

/-- The key of a bank determines rank and bank. -/
theorem bankKey_inj {id : ℤ} {r b r' b' : ℕ} (h : bankKey id r b = bankKey id r' b') :
    r = r' ∧ b = b' := by
  simp only [bankKey, List.cons.injEq, Nat.cast_inj, and_true, true_and] at h
  exact h

/-- The row group of an address is the key of its bank. -/
theorem rowgroup_eq {ranks banks : ℕ} {id : ℤ} {addr : ℕ → ℤ} {r b : ℕ} (hid : addr 0 = id)
    (h : InBank ranks banks addr r b) : RowTable.rowgroup addr = bankKey id r b := by
  simp [RowTable.rowgroup, rowLevel, List.range_succ, bankKey, hid, h.rank_eq, h.bank_eq]

section Agreement

variable {ranks banks : ℕ} {id : ℤ} {v : Banks} {table : RowTable} {addr : ℕ → ℤ} {r b : ℕ}
  {clk : ℤ}

/-- The empty table mirrors closed banks. -/
theorem mirrors_nil : Mirrors ranks banks id .allClosed [] where
  opened kv h := by cases h
  listed r hr b hb h := absurd rfl h

/-- An entry for a bank has the open row of the bank. -/
theorem Mirrors.row_eq (h : Mirrors ranks banks id v table) {entry : RowEntry}
    (hmem : (bankKey id r b, entry) ∈ table) : v.row r b = some entry.row := by
  obtain ⟨r', hr', b', hb', hkey, hrow⟩ := h.opened _ hmem
  obtain ⟨rfl, rfl⟩ := bankKey_inj hkey
  exact hrow

/-- What a table mirrors is the rows only. -/
theorem Mirrors.of_row_eq (h : Mirrors ranks banks id v table) {v' : Banks}
    (hrow : v'.row = v.row) : Mirrors ranks banks id v' table where
  opened := by
    rw [hrow]
    exact h.opened
  listed := by
    rw [hrow]
    exact h.listed

/-- The row of a closed bank is entered. -/
theorem Mirrors.insert (h : Mirrors ranks banks id v table) (hr : r < ranks) (hb : b < banks)
    (hclosed : v.row r b = none) (entry : RowEntry) :
    Mirrors ranks banks id (v.setRow r b (some entry.row))
      (table.insert (bankKey id r b) entry) where
  opened kv hkv := by
    rcases mem_of_mem_insert hkv with rfl | hkv
    · exact ⟨r, hr, b, hb, rfl, by simp [Banks.setRow, Banks.setRank]⟩
    · obtain ⟨r', hr', b', hb', hkey, hrow⟩ := h.opened kv hkv
      refine ⟨r', hr', b', hb', hkey, ?_⟩
      by_cases hrr : r' = r
      · by_cases hbb : b' = b
        · subst hrr hbb
          rw [hclosed] at hrow
          cases hrow
        · subst hrr
          simpa [Banks.setRow, Banks.setRank, hbb] using hrow
      · simpa [Banks.setRow, Banks.setRank, hrr] using hrow
  listed r' hr' b' hb' hopen := by
    by_cases hsame : r' = r ∧ b' = b
    · obtain ⟨rfl, rfl⟩ := hsame
      exact exists_mem_insert table _ entry
    · have hold : v.row r' b' ≠ none := by
        by_cases hrr : r' = r
        · have hbb : b' ≠ b := fun hbb => hsame ⟨hrr, hbb⟩
          subst hrr
          simpa [Banks.setRow, Banks.setRank, hbb] using hopen
        · simpa [Banks.setRow, Banks.setRank, hrr] using hopen
      obtain ⟨e, he⟩ := h.listed r' hr' b' hb' hold
      exact ⟨e, mem_insert_of_mem he⟩

/-- An access to the open row finds its entry. -/
theorem Mirrors.access (h : Mirrors ranks banks id v table) (hid : addr 0 = id)
    (haddr : InBank ranks banks addr r b) (hrow : v.row r b = some (addr 3)) (clk : ℤ) :
    ∃ table', table.access addr clk = some table' ∧ Mirrors ranks banks id v table' := by
  obtain ⟨e, he⟩ := h.listed r haddr.rank_lt b haddr.bank_lt (by simp [hrow])
  obtain ⟨entry, hentry⟩ := exists_find_of_mem he
  have hmem := mem_of_find hentry
  have hsame : entry.row = addr rowLevel := by
    have heq := h.row_eq hmem
    rw [hrow] at heq
    exact (Option.some_inj.mp heq).symm
  unfold RowTable.access
  rw [rowgroup_eq hid haddr, hentry]
  dsimp only
  rw [if_neg (not_not.mpr hsame)]
  refine ⟨_, rfl, ?_, ?_⟩
  · intro kv hkv
    obtain ⟨old, hold, rfl⟩ := List.mem_map.mp hkv
    obtain ⟨r', hr', b', hb', hkey, hopened⟩ := h.opened old hold
    refine ⟨r', hr', b', hb', ?_, ?_⟩
    · split <;> exact hkey
    · split <;> exact hopened
  · intro r' hr' b' hb' hopened
    obtain ⟨e', he'⟩ := h.listed r' hr' b' hb' hopened
    by_cases hkey : bankKey id r' b' = bankKey id r b
    · exact ⟨_, List.mem_map.mpr ⟨_, he', if_pos hkey⟩⟩
    · exact ⟨_, List.mem_map.mpr ⟨_, he', if_neg hkey⟩⟩

/-- Closing rows removes their entries, and there are some. -/
theorem Mirrors.close (h : Mirrors ranks banks id v table) {cmd : Command} {v' : Banks}
    (closes : ℕ → ℕ → Prop)
    (hdepth : ∀ r' b', ((bankKey id r' b').take
        ((if isAccessing cmd then rowLevel - 1 else scope cmd) + 1) =
      (List.range ((if isAccessing cmd then rowLevel - 1 else scope cmd) + 1)).map addr) ↔
        closes r' b')
    (hkept : ∀ r' b', ¬closes r' b' → v'.row r' b' = v.row r' b')
    (hclosed : ∀ r' < ranks, ∀ b' < banks, closes r' b' → v'.row r' b' = none)
    (hsome : ∃ r' < ranks, ∃ b' < banks, closes r' b' ∧ v.row r' b' ≠ none) :
    ∃ table', table.close cmd addr = some table' ∧ Mirrors ranks banks id v' table' := by
  unfold RowTable.close
  dsimp only
  rw [if_pos]
  · refine ⟨_, rfl, ?_, ?_⟩
    · intro kv hkv
      obtain ⟨hmem, hkeep⟩ := List.mem_filter.mp hkv
      obtain ⟨r', hr', b', hb', hkey, hrow⟩ := h.opened kv hmem
      refine ⟨r', hr', b', hb', hkey, ?_⟩
      rw [hkept r' b', hrow]
      intro hcloses
      rw [hkey] at hkeep
      simp [(hdepth r' b').mpr hcloses] at hkeep
    · intro r' hr' b' hb' hopen
      have hnot : ¬closes r' b' := fun hcloses => hopen (hclosed r' hr' b' hb' hcloses)
      obtain ⟨e, he⟩ := h.listed r' hr' b' hb' (hkept r' b' hnot ▸ hopen)
      refine ⟨e, List.mem_filter.mpr ⟨he, ?_⟩⟩
      simpa using fun heq => hnot ((hdepth r' b').mp heq)
  · obtain ⟨r', hr', b', hb', hcloses, hopen⟩ := hsome
    obtain ⟨e, he⟩ := h.listed r' hr' b' hb' hopen
    exact List.any_eq_true.mpr ⟨_, he, by simpa using (hdepth r' b').mpr hcloses⟩

/-- Closing the open row of a bank. -/
theorem Mirrors.close_bank (h : Mirrors ranks banks id v table) (cmd : Command)
    (hcmd : (if isAccessing cmd then rowLevel - 1 else scope cmd) = 2) (hid : addr 0 = id)
    (haddr : InBank ranks banks addr r b) (hopen : v.row r b ≠ none) :
    ∃ table', table.close cmd addr = some table' ∧
      Mirrors ranks banks id (v.setRow r b none) table' := by
  apply h.close fun r' b' => r' = r ∧ b' = b
  · intro r' b'
    rw [hcmd]
    simp [bankKey, List.range_succ, hid, haddr.rank_eq, haddr.bank_eq]
  · intro r' b' hother
    by_cases hr : r' = r
    · have hb : b' ≠ b := fun hb => hother ⟨hr, hb⟩
      simp [Banks.setRow, Banks.setRank, hr, hb]
    · simp [Banks.setRow, Banks.setRank, hr]
  · rintro r' hr' b' hb' ⟨rfl, rfl⟩
    simp [Banks.setRow, Banks.setRank]
  · exact ⟨r, haddr.rank_lt, b, haddr.bank_lt, ⟨rfl, rfl⟩, hopen⟩

/-- Closing the open rows of a rank. -/
theorem Mirrors.close_rank (h : Mirrors ranks banks id v table) (hid : addr 0 = id)
    (haddr : InRank ranks addr r) (hopen : v.AnyOpen banks r) :
    ∃ table', table.close .prea addr = some table' ∧
      Mirrors ranks banks id (v.setRank r (v.power r) fun _ => none) table' := by
  apply h.close fun r' _ => r' = r
  · intro r' b'
    simp [bankKey, isAccessing, scope, rankLevel, List.range_succ, hid, haddr.rank_eq]
  · intro r' b' hother
    simp [Banks.setRank, hother]
  · rintro r' hr' b' hb' rfl
    simp [Banks.setRank]
  · obtain ⟨b', hb', hrow⟩ := hopen
    exact ⟨r, haddr.rank_lt, b', hb', rfl, hrow⟩

/-- The table follows the channel through every command for a bank that fits. -/
theorem Mirrors.update_bank (h : Mirrors ranks banks id v table) {cmd : Command}
    (hcmd : ForBank cmd) (hid : addr 0 = id) (haddr : InBank ranks banks addr r b)
    (hfits : Fits v banks cmd r b (addr 3)) (clk : ℤ) :
    ∃ table', table.update cmd addr clk = some table' ∧
      Mirrors ranks banks id (v.after banks cmd r b (addr 3)) table' := by
  have hopenRow (haccess : isAccessing cmd = true) : v.row r b ≠ none := by
    simp [(hfits.access haccess).2]
  cases cmd
  case act =>
    refine ⟨_, rfl, ?_⟩
    have hinsert := h.insert haddr.rank_lt haddr.bank_lt (hfits.act rfl).2
      { row := addr 3, hits := 0, timestamp := clk }
    rw [← rowgroup_eq hid haddr] at hinsert
    exact hinsert
  case pre => exact h.close_bank .pre rfl hid haddr (hfits.pre rfl)
  case rd | wr =>
    obtain ⟨table', htable, hmirrors⟩ := h.access hid haddr (hfits.access rfl).2 clk
    refine ⟨table', ?_, hmirrors⟩
    simp [RowTable.update, isOpening, isAccessing, isClosing, htable]
  case' rda =>
    obtain ⟨table', htable, hmirrors⟩ := h.access hid haddr (hfits.access rfl).2 clk
    obtain ⟨table'', htable', hmirrors'⟩ :=
      hmirrors.close_bank .rda rfl hid haddr (hopenRow rfl)
  case' wra =>
    obtain ⟨table', htable, hmirrors⟩ := h.access hid haddr (hfits.access rfl).2 clk
    obtain ⟨table'', htable', hmirrors'⟩ :=
      hmirrors.close_bank .wra rfl hid haddr (hopenRow rfl)
  case rda | wra =>
    refine ⟨table'', ?_, hmirrors'⟩
    simp only [RowTable.update, isOpening, isAccessing, isClosing, if_true, Bool.false_eq_true,
      if_false, htable, Option.bind_eq_bind, Option.bind_some]
    exact htable'
  all_goals exact absurd hcmd (by decide)

/-- The table follows the channel through every command for a rank that fits. -/
theorem Mirrors.update_rank (h : Mirrors ranks banks id v table) {cmd : Command}
    (hcmd : ¬ForBank cmd) (hid : addr 0 = id) (haddr : InRank ranks addr r)
    (row : ℤ) (hfits : Fits v banks cmd r b row) (clk : ℤ) :
    ∃ table', table.update cmd addr clk = some table' ∧
      Mirrors ranks banks id (v.after banks cmd r b row) table' := by
  cases cmd
  case prea => exact h.close_rank hid haddr (hfits.prea rfl)
  case ref => exact ⟨table, rfl, h⟩
  case pde | pdx | sre | srx =>
    refine ⟨table, rfl, h.of_row_eq ?_⟩
    simp [Banks.after, Banks.setPower, Banks.setRank]
  all_goals exact absurd (by decide) hcmd

end Agreement

end MacSim.Analysis.Ramulator
