import MacSim.Model.RamulatorDdr3
import MacSim.Computation.RecentPast

/-!
# When a DRAM command is ready

A node does not keep the commands that were issued, only the time from which each command is
allowed and as many of the last issue times as its timing parameters look back.  Here the timing
parameters are read as bounds on the whole history of a channel, and the tree is shown to answer
exactly by them: no bound that is out of reach of the queues is lost, and none is made up.
-/

set_option autoImplicit false

namespace MacSim.Analysis.Ramulator

open MacSim.Model.Ramulator MacSim.Computation

variable {Cmd State : Type} [DecidableEq Cmd]

/-! ## Histories -/

/-- The command went to the node of this level that lies at `pos`, or below it. -/
def Reaches (i : Issued Cmd) (level : ℕ) (pos : ℕ → ℤ) : Prop :=
  ∀ k ≤ level, i.addr k = pos k

instance (i : Issued Cmd) (level : ℕ) (pos : ℕ → ℤ) : Decidable (Reaches i level pos) :=
  inferInstanceAs (Decidable (∀ k ≤ level, i.addr k = pos k))

/-- When `c` was issued to a node, newest first. -/
def issueTimes (past : List (Issued Cmd)) (c : Cmd) (level : ℕ) (pos : ℕ → ℤ) : List ℤ :=
  (past.filter fun i => i.cmd = c ∧ Reaches i level pos).map Issued.clk

/-- A time before which the history forbids `cmd` at a node: `val` cycles after any issue that has
`dist` issues of the same command from it on, or after an issue to a sibling. -/
inductive LowerBound (table : TimingTable Cmd) (past : List (Issued Cmd)) (level : ℕ) (cmd : Cmd)
    (pos : ℕ → ℤ) : ℤ → Prop
  | own {c : Cmd} {t : TimingEntry Cmd} {j : ℕ} {p : ℤ} (listed : t ∈ table.timing level c)
      (for_cmd : t.cmd = cmd) (own : t.sibling = false) (far : t.dist ≤ j + 1)
      (issued : (issueTimes past c level pos)[j]? = some p) :
      LowerBound table past level cmd pos (p + t.val)
  | sibling {t : TimingEntry Cmd} {i : Issued Cmd} (listed : t ∈ table.timing level i.cmd)
      (for_cmd : t.cmd = cmd) (sibling : t.sibling = true) (issued : i ∈ past)
      (above : ∀ k < level, i.addr k = pos k) (beside : i.addr level ≠ pos level) :
      LowerBound table past level cmd pos (i.clk + t.val)

/-- A command that reaches a place adds its clock to the times there. -/
theorem issueTimes_cons_of_reaches {past : List (Issued Cmd)} {i : Issued Cmd} {level : ℕ}
    {pos : ℕ → ℤ} (h : Reaches i level pos) :
    issueTimes (i :: past) i.cmd level pos = i.clk :: issueTimes past i.cmd level pos := by
  unfold issueTimes
  rw [List.filter_cons_of_pos (by simpa using h), List.map_cons]

/-- Another command adds nothing to the times. -/
theorem issueTimes_cons_of_ne {past : List (Issued Cmd)} {i : Issued Cmd} {c : Cmd} {level : ℕ}
    {pos : ℕ → ℤ} (h : ¬(i.cmd = c ∧ Reaches i level pos)) :
    issueTimes (i :: past) c level pos = issueTimes past c level pos := by
  unfold issueTimes
  rw [List.filter_cons_of_neg (by simpa using h)]

omit [DecidableEq Cmd] in
/-- What reaches a place is seen in its path only. -/
theorem reaches_congr {i : Issued Cmd} {level : ℕ} {pos pos' : ℕ → ℤ}
    (hpos : ∀ k ≤ level, pos k = pos' k) : Reaches i level pos ↔ Reaches i level pos' := by
  unfold Reaches
  constructor
  · intro h k hk
    rw [h k hk, hpos k hk]
  · intro h k hk
    rw [h k hk, hpos k hk]

/-- The times at a place are seen in its path only. -/
theorem issueTimes_congr {past : List (Issued Cmd)} {c : Cmd} {level : ℕ} {pos pos' : ℕ → ℤ}
    (hpos : ∀ k ≤ level, pos k = pos' k) :
    issueTimes past c level pos = issueTimes past c level pos' := by
  unfold issueTimes
  congr 1
  apply List.filter_congr
  intro i _
  simp only [reaches_congr hpos]

/-- A bound is passed on along the path. -/
theorem LowerBound.congr {table : TimingTable Cmd} {past : List (Issued Cmd)} {level : ℕ}
    {cmd : Cmd} {pos pos' : ℕ → ℤ} {b : ℤ} (hpos : ∀ k ≤ level, pos k = pos' k)
    (h : LowerBound table past level cmd pos b) : LowerBound table past level cmd pos' b := by
  cases h with
  | own listed for_cmd own far issued =>
    rw [issueTimes_congr hpos] at issued
    exact .own listed for_cmd own far issued
  | sibling listed for_cmd sibling issued above beside =>
    refine .sibling listed for_cmd sibling issued ?_ ?_
    · intro k hk
      rw [above k hk, hpos k hk.le]
    · rw [← hpos level le_rfl]
      exact beside

/-- The bounds at a place are seen in its path only. -/
theorem lowerBound_congr {table : TimingTable Cmd} {past : List (Issued Cmd)} {level : ℕ}
    {cmd : Cmd} {pos pos' : ℕ → ℤ} {b : ℤ} (hpos : ∀ k ≤ level, pos k = pos' k) :
    LowerBound table past level cmd pos b ↔ LowerBound table past level cmd pos' b :=
  ⟨.congr hpos, .congr fun k hk => (hpos k hk).symm⟩

/-! ## One more command -/

section OneMore

variable {table : TimingTable Cmd} {past : List (Issued Cmd)} {i : Issued Cmd} {level : ℕ}
  {cmd : Cmd} {pos : ℕ → ℤ} {b : ℤ}

/-- A command that leaves the path above a node binds nothing there. -/
theorem lowerBound_cons_miss (hmiss : ∃ k < level, i.addr k ≠ pos k) :
    LowerBound table (i :: past) level cmd pos b ↔ LowerBound table past level cmd pos b := by
  obtain ⟨k, hk, hne⟩ := hmiss
  have hnot (c : Cmd) : ¬(i.cmd = c ∧ Reaches i level pos) := fun h => hne (h.2 k hk.le)
  constructor
  · intro h
    cases h with
    | own listed for_cmd own far issued =>
      rw [issueTimes_cons_of_ne (hnot _)] at issued
      exact .own listed for_cmd own far issued
    | sibling listed for_cmd sibling issued above beside =>
      rcases List.mem_cons.mp issued with rfl | issued
      · exact absurd (above k hk) hne
      · exact .sibling listed for_cmd sibling issued above beside
  · intro h
    cases h with
    | own listed for_cmd own far issued =>
      rw [← issueTimes_cons_of_ne (hnot _)] at issued
      exact .own listed for_cmd own far issued
    | sibling listed for_cmd sibling issued above beside =>
      exact .sibling listed for_cmd sibling (List.mem_cons_of_mem _ issued) above beside

/-- A command to a sibling binds by the parameters between siblings. -/
theorem lowerBound_cons_beside (habove : ∀ k < level, i.addr k = pos k)
    (hbeside : i.addr level ≠ pos level) :
    LowerBound table (i :: past) level cmd pos b ↔
      LowerBound table past level cmd pos b ∨
        ∃ t ∈ table.timing level i.cmd, t.cmd = cmd ∧ t.sibling = true ∧ b = i.clk + t.val := by
  have hnot (c : Cmd) : ¬(i.cmd = c ∧ Reaches i level pos) := fun h => hbeside (h.2 level le_rfl)
  constructor
  · intro h
    cases h with
    | own listed for_cmd own far issued =>
      rw [issueTimes_cons_of_ne (hnot _)] at issued
      exact .inl (.own listed for_cmd own far issued)
    | sibling listed for_cmd sibling issued above beside =>
      rcases List.mem_cons.mp issued with rfl | issued
      · exact .inr ⟨_, listed, for_cmd, sibling, rfl⟩
      · exact .inl (.sibling listed for_cmd sibling issued above beside)
  · rintro (h | ⟨t, listed, for_cmd, sibling, rfl⟩)
    · cases h with
      | own listed for_cmd own far issued =>
        rw [← issueTimes_cons_of_ne (hnot _)] at issued
        exact .own listed for_cmd own far issued
      | sibling listed for_cmd sibling issued above beside =>
        exact .sibling listed for_cmd sibling (List.mem_cons_of_mem _ issued) above beside
    · exact .sibling listed for_cmd sibling (List.mem_cons_self ..) habove hbeside

/-- A command to the node itself binds, for each parameter, from the issue at its distance. -/
theorem lowerBound_cons_reaches (hreach : Reaches i level pos) :
    LowerBound table (i :: past) level cmd pos b ↔
      LowerBound table past level cmd pos b ∨
        ∃ t ∈ table.timing level i.cmd, t.cmd = cmd ∧ t.sibling = false ∧
          ∃ p, (i.clk :: issueTimes past i.cmd level pos)[t.dist - 1]? = some p ∧
            b = p + t.val := by
  constructor
  · intro h
    cases h with
    | @own c t j p listed for_cmd own far issued =>
      by_cases hc : i.cmd = c
      · subst hc
        rw [issueTimes_cons_of_reaches hreach] at issued
        have hpos := table.dist_pos level _ t listed
        rcases Nat.lt_or_ge j t.dist with hlt | hge
        · have hj : j = t.dist - 1 := by omega
          rw [hj] at issued
          exact .inr ⟨t, listed, for_cmd, own, p, issued, rfl⟩
        · obtain ⟨m, rfl⟩ : ∃ m, j = m + 1 := ⟨j - 1, by omega⟩
          rw [List.getElem?_cons_succ] at issued
          exact .inl (.own listed for_cmd own hge issued)
      · rw [issueTimes_cons_of_ne fun h => hc h.1] at issued
        exact .inl (.own listed for_cmd own far issued)
    | sibling listed for_cmd sibling issued above beside =>
      rcases List.mem_cons.mp issued with rfl | issued
      · exact absurd (hreach level le_rfl) beside
      · exact .inl (.sibling listed for_cmd sibling issued above beside)
  · rintro (h | ⟨t, listed, for_cmd, own, p, issued, rfl⟩)
    · cases h with
      | @own c t j p listed for_cmd own far issued =>
        by_cases hc : i.cmd = c
        · subst hc
          refine .own (j := j + 1) listed for_cmd own (by omega) ?_
          rw [issueTimes_cons_of_reaches hreach, List.getElem?_cons_succ]
          exact issued
        · rw [← issueTimes_cons_of_ne fun h => hc h.1] at issued
          exact .own listed for_cmd own far issued
      | sibling listed for_cmd sibling issued above beside =>
        exact .sibling listed for_cmd sibling (List.mem_cons_of_mem _ issued) above beside
    · have hpos := table.dist_pos level _ t listed
      rw [← issueTimes_cons_of_reaches hreach] at issued
      exact .own listed for_cmd own (by omega) issued

end OneMore

/-! ## What a node keeps -/

omit [DecidableEq Cmd] in
/-- The timing parameters under a command look back no further than its queue. -/
theorem dist_le_history (table : TimingTable Cmd) {level : ℕ} {c : Cmd} {t : TimingEntry Cmd}
    (ht : t ∈ table.timing level c) : t.dist ≤ table.history level c := by
  have hfold : ∀ (entries : List (TimingEntry Cmd)) (d : ℕ),
      d ≤ entries.foldl (fun dist t => max dist t.dist) d ∧
        ∀ t ∈ entries, t.dist ≤ entries.foldl (fun dist t => max dist t.dist) d := by
    intro entries
    induction entries with
    | nil => simp
    | cons e es ih =>
      intro d
      have hstep := ih (max d e.dist)
      rw [List.foldl_cons]
      refine ⟨(le_max_left _ _).trans hstep.1, ?_⟩
      intro t ht
      rcases List.mem_cons.mp ht with rfl | ht
      · exact (le_max_right _ _).trans hstep.1
      · exact hstep.2 t ht
  exact (hfold _ 0).2 t ht

/-- The next clock is at most a bound exactly when it was and every entry of the command is. -/
theorem raiseNext_le (future : TimingEntry Cmd → Option ℤ) (entries : List (TimingEntry Cmd))
    (next : Cmd → ℤ) (cmd : Cmd) (m : ℤ) :
    Dram.raiseNext future entries next cmd ≤ m ↔
      next cmd ≤ m ∧ ∀ t ∈ entries, t.cmd = cmd → ∀ time, future t = some time → time ≤ m := by
  induction entries generalizing next with
  | nil => simp [Dram.raiseNext]
  | cons e es ih =>
    unfold Dram.raiseNext
    cases hf : future e with
    | none => simp [ih, hf]
    | some time =>
      by_cases hcmd : e.cmd = cmd
      · subst hcmd
        simp [ih, hf, and_assoc]
      · simp [ih, hf, hcmd, Function.update_of_ne (Ne.symm hcmd)]

/-- A node's queues and times are those of the history at its place. -/
structure NodeRecords (table : TimingTable Cmd) (past : List (Issued Cmd)) (level : ℕ)
    (pos : ℕ → ℤ) (cells : DramCells Cmd State) : Prop where
  id_eq : cells.id = pos level
  prev_eq : ∀ c, cells.prev c =
    recentPast (table.history level c) (-1) (issueTimes past c level pos)
  next_le : ∀ cmd m, cells.next cmd ≤ m ↔
    -1 ≤ m ∧ ∀ b, LowerBound table past level cmd pos b → b ≤ m

/-- All nodes of a tree record the history, and each has as many children as its level has. -/
def TreeRecords (table : TimingTable Cmd) (children : ℕ → ℕ) (past : List (Issued Cmd)) :
    {level : ℕ} → (ℕ → ℤ) → Dram Cmd State level → Prop
  | level, pos, .node cells count child =>
    NodeRecords table past level pos cells ∧ count = children level ∧
      ∀ i : Fin count,
        TreeRecords table children past (Function.update pos (level + 1) ((i : ℕ) : ℤ)) (child i)

section Nodes

variable {table : TimingTable Cmd} {children : ℕ → ℕ} {past : List (Issued Cmd)}
  {i : Issued Cmd} {level : ℕ} {pos : ℕ → ℤ} {cells : DramCells Cmd State}

/-- A command elsewhere keeps the records of a place. -/
theorem NodeRecords.miss (h : NodeRecords table past level pos cells)
    (hmiss : ∃ k < level, i.addr k ≠ pos k) :
    NodeRecords table (i :: past) level pos cells where
  id_eq := h.id_eq
  prev_eq c := by
    obtain ⟨k, hk, hne⟩ := hmiss
    rw [issueTimes_cons_of_ne fun hc => hne (hc.2 k hk.le)]
    exact h.prev_eq c
  next_le cmd m := by
    simp only [lowerBound_cons_miss hmiss]
    exact h.next_le cmd m

/-- A command to a sibling keeps the records of a place. -/
theorem NodeRecords.beside (h : NodeRecords table past level pos cells)
    (habove : ∀ k < level, i.addr k = pos k) (hbeside : i.addr level ≠ pos level) :
    NodeRecords table (i :: past) level pos
      (Dram.siblingCells (table.timing level i.cmd) i.clk cells) where
  id_eq := h.id_eq
  prev_eq c := by
    rw [issueTimes_cons_of_ne fun hc => hbeside (hc.2 level le_rfl)]
    exact h.prev_eq c
  next_le cmd m := by
    simp only [Dram.siblingCells, raiseNext_le, h.next_le,
      lowerBound_cons_beside habove hbeside]
    constructor
    · rintro ⟨⟨hm, hold⟩, hnew⟩
      refine ⟨hm, ?_⟩
      rintro b (hb | ⟨t, ht, hcmd, hsib, rfl⟩)
      · exact hold b hb
      · exact hnew t ht hcmd _ (if_pos hsib)
    · rintro ⟨hm, hall⟩
      refine ⟨⟨hm, fun b hb => hall b (.inl hb)⟩, ?_⟩
      intro t ht hcmd time htime
      by_cases hsib : t.sibling = true
      · rw [if_pos hsib, Option.some_inj] at htime
        exact htime ▸ hall _ (.inr ⟨t, ht, hcmd, hsib, rfl⟩)
      · rw [if_neg hsib] at htime
        cases htime

/-- The queue of a command that has timing parameters, once the command is issued. -/
theorem NodeRecords.queue_eq (h : NodeRecords table past level pos cells)
    {t : TimingEntry Cmd} (ht : t ∈ table.timing level i.cmd) :
    (if (cells.prev i.cmd).length ≠ 0 then i.clk :: (cells.prev i.cmd).dropLast
      else cells.prev i.cmd) =
        recentPast (table.history level i.cmd) (-1)
          (i.clk :: issueTimes past i.cmd level pos) := by
  have hlen : 0 < table.history level i.cmd :=
    (table.dist_pos level _ t ht).trans_le (dist_le_history table ht)
  rw [h.prev_eq, length_recentPast, if_pos (by omega), cons_dropLast_recentPast hlen]

omit [DecidableEq Cmd] in
/-- The recent clocks are those of the past, and minus one before it. -/
theorem recentPast_getD {len : ℕ} {d : ℕ} (hd : d < len) (past : List ℤ) :
    (recentPast len (-1) past).getD d (-1) = (past[d]?).getD (-1) := by
  rw [List.getD_eq_getElem?_getD, getElem?_recentPast hd, Option.getD_some]

/-- A command that reaches a place keeps its records. -/
theorem NodeRecords.reaches (h : NodeRecords table past level pos cells)
    (hreach : Reaches i level pos) (hclk : ∀ j ∈ i :: past, 0 ≤ j.clk) :
    NodeRecords table (i :: past) level pos
      (Dram.targetCells (table.timing level i.cmd) i.cmd i.clk cells) where
  id_eq := h.id_eq
  prev_eq c := by
    by_cases hc : c = i.cmd
    · subst hc
      rw [issueTimes_cons_of_reaches hreach]
      simp only [Dram.targetCells, Function.update_self]
      by_cases hlen : table.history level i.cmd = 0
      · rw [h.prev_eq, length_recentPast, if_neg (by omega), hlen]
        rfl
      · rw [h.prev_eq, length_recentPast, if_pos hlen,
          cons_dropLast_recentPast (Nat.pos_of_ne_zero hlen)]
    · rw [issueTimes_cons_of_ne fun h => hc h.1.symm]
      simp only [Dram.targetCells, Function.update_of_ne hc]
      exact h.prev_eq c
  next_le cmd m := by
    have htimes : ∀ p ∈ i.clk :: issueTimes past i.cmd level pos, 0 ≤ p := by
      rw [← issueTimes_cons_of_reaches hreach]
      intro p hp
      obtain ⟨j, hj, rfl⟩ := List.mem_map.mp hp
      exact hclk j (List.mem_of_mem_filter hj)
    have hread {t : TimingEntry Cmd} (ht : t ∈ table.timing level i.cmd) :=
      recentPast_getD (show t.dist - 1 < table.history level i.cmd by
        have hpos := table.dist_pos level _ t ht
        have hfar := dist_le_history table ht
        omega) (i.clk :: issueTimes past i.cmd level pos)
    simp only [Dram.targetCells, raiseNext_le, h.next_le, lowerBound_cons_reaches hreach]
    constructor
    · rintro ⟨⟨hm, hold⟩, hnew⟩
      refine ⟨hm, ?_⟩
      rintro b (hb | ⟨t, ht, hcmd, hown, p, hp, rfl⟩)
      · exact hold b hb
      · have hnonneg : ¬p < 0 := not_lt.mpr (htimes p (List.mem_of_getElem? hp))
        refine hnew t ht hcmd _ ?_
        rw [h.queue_eq ht, hread ht, hp, Option.getD_some, hown, if_neg Bool.false_ne_true,
          if_neg hnonneg]
    · rintro ⟨hm, hall⟩
      refine ⟨⟨hm, fun b hb => hall b (.inl hb)⟩, ?_⟩
      intro t ht hcmd time htime
      rw [h.queue_eq ht, hread ht] at htime
      cases hsib : t.sibling with
      | true =>
        rw [hsib, if_pos rfl] at htime
        cases htime
      | false =>
        rw [hsib, if_neg Bool.false_ne_true] at htime
        cases hp : (i.clk :: issueTimes past i.cmd level pos)[t.dist - 1]? with
        | none =>
          rw [hp, Option.getD_none, if_pos (by omega)] at htime
          cases htime
        | some p =>
          have hnonneg : ¬p < 0 := not_lt.mpr (htimes p (List.mem_of_getElem? hp))
          rw [hp, Option.getD_some, if_neg hnonneg, Option.some_inj] at htime
          exact htime ▸ hall _ (.inr ⟨t, ht, hcmd, hsib, p, hp, rfl⟩)

/-! ## What a tree keeps -/

/-- A command elsewhere keeps the records of the tree. -/
theorem TreeRecords.miss {d : Dram Cmd State level} {pos : ℕ → ℤ}
    (h : TreeRecords table children past pos d) (hmiss : ∃ k < level, i.addr k ≠ pos k) :
    TreeRecords table children (i :: past) pos d := by
  induction d generalizing pos with
  | node cells count child ih =>
    obtain ⟨hnode, hcount, hchild⟩ := h
    refine ⟨hnode.miss hmiss, hcount, ?_⟩
    intro n
    apply ih n (hchild n)
    obtain ⟨k, hk, hne⟩ := hmiss
    refine ⟨k, by omega, ?_⟩
    rw [Function.update_of_ne (by omega)]
    exact hne

/-- A command leaves a tree that records it too. -/
theorem TreeRecords.updateTiming {d : Dram Cmd State level} {pos : ℕ → ℤ}
    (h : TreeRecords table children past pos d) (habove : ∀ k < level, i.addr k = pos k)
    (hclk : ∀ j ∈ i :: past, 0 ≤ j.clk) :
    TreeRecords table children (i :: past) pos (d.updateTiming table i.cmd i.addr i.clk) := by
  induction d generalizing pos with
  | @node level cells count child ih =>
    obtain ⟨hnode, hcount, hchild⟩ := h
    unfold Dram.updateTiming
    by_cases hid : cells.id = i.addr level
    · rw [if_neg (not_not.mpr hid)]
      have hreach : Reaches i level pos := by
        intro k hk
        rcases hk.lt_or_eq with hlt | rfl
        · exact habove k hlt
        · rw [← hid, hnode.id_eq]
      refine ⟨hnode.reaches hreach hclk, hcount, ?_⟩
      intro n
      apply ih n (hchild n)
      intro k hk
      rw [Function.update_of_ne (by omega)]
      exact hreach k (by omega)
    · rw [if_pos hid]
      have hbeside : i.addr level ≠ pos level := by
        rw [← hnode.id_eq]
        exact Ne.symm hid
      refine ⟨hnode.beside habove hbeside, hcount, ?_⟩
      intro n
      apply (hchild n).miss
      refine ⟨level, by omega, ?_⟩
      rw [Function.update_of_ne (by omega)]
      exact hbeside

end Nodes

section Trees

variable {table : TimingTable Cmd} {children : ℕ → ℕ} {past : List (Issued Cmd)} {level : ℕ}
  {pos : ℕ → ℤ}

/-- What is recorded does not depend on states. -/
theorem treeRecords_map {d : Dram Cmd State level} :
    TreeRecords table children past pos (d.map Dram.timingCells) ↔
      TreeRecords table children past pos d := by
  induction d generalizing pos with
  | @node level cells count child ih =>
    have hnode : NodeRecords table past level pos (Dram.timingCells cells) ↔
        NodeRecords table past level pos cells :=
      ⟨fun h => ⟨h.id_eq, h.prev_eq, h.next_le⟩, fun h => ⟨h.id_eq, h.prev_eq, h.next_le⟩⟩
    simp only [Dram.map, TreeRecords, hnode, ih]

omit [DecidableEq Cmd] in
/-- A part of the cells that state changes leave alone is the same after a whole walk. -/
theorem updateState_map {Cmd' State' : Type} {spec : DramSpec Cmd State}
    (f : DramCells Cmd State → DramCells Cmd' State') {cmd : Cmd}
    (hf : ∀ (level : ℕ) (d : Dram Cmd State level) (i : ℤ),
      (spec.lambda level cmd d i).map f = d.map f)
    {addr : ℕ → ℤ} {d d' : Dram Cmd State level} (h : d.updateState spec cmd addr = some d') :
    d'.map f = d.map f := by
  unfold Dram.updateState at h
  generalize spec.scope cmd - level = togo at h
  induction togo generalizing level d d' with
  | zero =>
    cases h
    exact hf ..
  | succ togo ih =>
    unfold Dram.updateStateDown at h
    have hlambda := hf level d (addr (level + 1))
    generalize spec.lambda level cmd d (addr (level + 1)) = changed at h hlambda
    obtain ⟨cells, count, child⟩ := changed
    dsimp only at h
    split at h
    · cases h
      exact hlambda
    · split at h
      · rename_i hrange
        obtain ⟨below, hbelow, rfl⟩ := Option.map_eq_some_iff.mp h
        rw [← hlambda]
        simp only [Dram.map]
        congr 1
        funext n
        by_cases hn : n = ⟨(addr (level + 1)).toNat, hrange.2⟩
        · subst hn
          rw [Function.update_self, ih hbelow]
        · rw [Function.update_of_ne hn]
      · cases h

/-- A change of the state keeps the records of the tree. -/
theorem TreeRecords.updateState {spec : DramSpec Cmd State} {cmd : Cmd} {addr : ℕ → ℤ}
    {d d' : Dram Cmd State level}
    (h : TreeRecords table children past pos d) (hd : d.updateState spec cmd addr = some d') :
    TreeRecords table children past pos d' := by
  rw [← treeRecords_map,
    updateState_map Dram.timingCells (fun level => spec.lambda_timing level cmd) hd,
    treeRecords_map]
  exact h

/-- How many children a node of a level has: rows are no nodes. -/
def childCount (spec : DramSpec Cmd State) (level : ℕ) : ℕ :=
  if level + 1 < spec.rowLevel then spec.orgCount (level + 1) else 0

/-- Without a past no command was issued. -/
theorem issueTimes_nil (c : Cmd) : issueTimes ([] : List (Issued Cmd)) c level pos = [] := rfl

/-- Without a past there is no bound. -/
theorem not_lowerBound_nil {cmd : Cmd} {b : ℤ} : ¬LowerBound table [] level cmd pos b := by
  intro h
  cases h with
  | own listed for_cmd own far issued =>
    rw [issueTimes_nil, List.getElem?_nil] at issued
    cases issued
  | sibling listed for_cmd sibling issued above beside => cases issued

/-- New cells have the records of no past. -/
theorem nodeRecords_newCells (spec : DramSpec Cmd State) {id : ℤ} (hid : id = pos level) :
    NodeRecords spec.toTimingTable [] level pos (Dram.newCells spec level id) where
  id_eq := hid
  prev_eq c := by
    rw [issueTimes_nil, recentPast_nil]
    rfl
  next_le cmd m := by
    constructor
    · intro hm
      exact ⟨hm, fun b hb => absurd hb not_lowerBound_nil⟩
    · intro hm
      exact hm.1

/-- A new tree records that nothing was issued. -/
theorem treeRecords_construct (spec : DramSpec Cmd State) (below : ℕ) {id : ℤ}
    (hbelow : below = spec.rowLevel - 1 - level) (hid : id = pos level) :
    TreeRecords spec.toTimingTable (childCount spec) [] pos
      (Dram.construct spec below id : Dram Cmd State level) := by
  induction below generalizing level id pos with
  | zero =>
    refine ⟨nodeRecords_newCells spec hid, ?_, fun n => n.elim0⟩
    unfold childCount
    rw [if_neg (by omega)]
  | succ below ih =>
    refine ⟨nodeRecords_newCells spec hid, ?_, ?_⟩
    · unfold childCount
      rw [if_pos (by omega)]
    · intro n
      apply ih (by omega)
      rw [Function.update_self]

end Trees

/-! ## Runs -/

/-- The channels that a sequence of commands leads to; the last command comes first. -/
inductive IssuesTo (spec : DramSpec Cmd State) (id : ℤ) :
    List (Issued Cmd) → Channel Cmd State → Prop
  | start : IssuesTo spec id [] (Channel.new spec id)
  | issue {past : List (Issued Cmd)} {s s' : Channel Cmd State} (i : Issued Cmd)
      (before : IssuesTo spec id past s) (update : s.update spec i.cmd i.addr i.clk = some s') :
      IssuesTo spec id (i :: past) s'

/-- Every channel of a run records the run. -/
theorem IssuesTo.records {spec : DramSpec Cmd State} {id : ℤ} {past : List (Issued Cmd)}
    {s : Channel Cmd State} (h : IssuesTo spec id past s) (hclk : ∀ i ∈ past, 0 ≤ i.clk) :
    TreeRecords spec.toTimingTable (childCount spec) past (fun _ => id) s.root := by
  induction h with
  | start => exact treeRecords_construct spec _ (by omega) rfl
  | @issue past s s' i before update ih =>
    obtain ⟨root, hroot, rfl⟩ := Option.map_eq_some_iff.mp update
    have hbefore := ih fun j hj => hclk j (List.mem_cons_of_mem _ hj)
    exact (hbefore.updateState hroot).updateTiming (fun k hk => absurd hk (Nat.not_lt_zero k))
      hclk

/-! ## What the tree answers -/

/-- A walk of a command from one level on comes to another. -/
def Visits (table : TimingTable Cmd) (children : ℕ → ℕ) (cmd : Cmd) (addr : ℕ → ℤ)
    (first level : ℕ) : Prop :=
  first ≤ level ∧ ∀ k, first ≤ k → k < level →
    0 ≤ addr (k + 1) ∧ k ≠ table.scope cmd ∧ children k ≠ 0

/-- No bound on `cmd` at a node of its way ends after `clk`. -/
def BoundsMet (table : TimingTable Cmd) (children : ℕ → ℕ) (past : List (Issued Cmd))
    (cmd : Cmd) (addr : ℕ → ℤ) (first : ℕ) (clk : ℤ) : Prop :=
  ∀ level, Visits table children cmd addr first level →
    ∀ b, LowerBound table past level cmd addr b → b ≤ clk

/-- The address names children that exist. -/
def InTree (children : ℕ → ℕ) (addr : ℕ → ℤ) : Prop :=
  ∀ k, children k ≠ 0 → addr (k + 1) < children k

section Answers

variable {table : TimingTable Cmd} {children : ℕ → ℕ} {past : List (Issued Cmd)} {cmd : Cmd}
  {addr : ℕ → ℤ} {first : ℕ} {clk : ℤ}

omit [DecidableEq Cmd] in
/-- A check visits the place where it starts. -/
theorem visits_self : Visits table children cmd addr first first :=
  ⟨le_rfl, fun _ hk hk' => absurd hk (Nat.not_le.mpr hk')⟩

omit [DecidableEq Cmd] in
/-- A walk that stops at its first level visits no other. -/
theorem Visits.eq_of_stop {level : ℕ} (h : Visits table children cmd addr first level)
    (hstop : addr (first + 1) < 0 ∨ first = table.scope cmd ∨ children first = 0) :
    level = first := by
  by_contra hne
  obtain ⟨hnext, hscope, hchild⟩ := h.2 first le_rfl (by have := h.1; omega)
  rcases hstop with hneg | heq | hleaf
  · omega
  · exact hscope heq
  · exact hchild hleaf

omit [DecidableEq Cmd] in
/-- Where a check goes on it visits the place and those below. -/
theorem visits_iff_of_continue {level : ℕ} (hnext : 0 ≤ addr (first + 1))
    (hscope : first ≠ table.scope cmd) (hchild : children first ≠ 0) :
    Visits table children cmd addr first level ↔
      level = first ∨ Visits table children cmd addr (first + 1) level := by
  constructor
  · intro h
    rcases h.1.eq_or_lt with heq | hlt
    · exact .inl heq.symm
    · exact .inr ⟨hlt, fun k hk hk' => h.2 k (by omega) hk'⟩
  · rintro (rfl | h)
    · exact visits_self
    · refine ⟨by have := h.1; omega, ?_⟩
      intro k hk hk'
      rcases hk.eq_or_lt with rfl | hlt
      · exact ⟨hnext, hscope, hchild⟩
      · exact h.2 k hlt hk'

/-- Where a check stops it meets the bounds of the place. -/
theorem boundsMet_iff_of_stop
    (hstop : addr (first + 1) < 0 ∨ first = table.scope cmd ∨ children first = 0) :
    BoundsMet table children past cmd addr first clk ↔
      ∀ b, LowerBound table past first cmd addr b → b ≤ clk := by
  constructor
  · intro h b hb
    exact h first visits_self b hb
  · intro h level hlevel b hb
    rw [hlevel.eq_of_stop hstop] at hb
    exact h b hb

/-- Where a check goes on it meets the bounds of the place and those below. -/
theorem boundsMet_iff_of_continue (hnext : 0 ≤ addr (first + 1))
    (hscope : first ≠ table.scope cmd) (hchild : children first ≠ 0) :
    BoundsMet table children past cmd addr first clk ↔
      (∀ b, LowerBound table past first cmd addr b → b ≤ clk) ∧
        BoundsMet table children past cmd addr (first + 1) clk := by
  unfold BoundsMet
  simp only [visits_iff_of_continue hnext hscope hchild]
  constructor
  · intro h
    exact ⟨h first (.inl rfl), fun level hlevel => h level (.inr hlevel)⟩
  · rintro ⟨hself, hbelow⟩ level (rfl | hlevel)
    · exact hself
    · exact hbelow level hlevel

variable (cmd) in
/-- The walk of `check` answers by the bounds of the history. -/
theorem TreeRecords.check {level : ℕ} {d : Dram Cmd State level} {pos : ℕ → ℤ}
    (h : TreeRecords table children past pos d) (hpos : ∀ k ≤ level, pos k = addr k)
    (haddr : InTree children addr) (hclk : -1 ≤ clk) :
    ∃ ok, d.check table cmd addr clk = some ok ∧
      (ok = true ↔ BoundsMet table children past cmd addr level clk) := by
  induction d generalizing pos with
  | @node level cells count child ih =>
    obtain ⟨hnode, hcount, hchild⟩ := h
    have hself : cells.next cmd ≤ clk ↔
        ∀ b, LowerBound table past level cmd addr b → b ≤ clk := by
      rw [hnode.next_le]
      simp only [hclk, true_and, lowerBound_congr hpos]
    unfold Dram.check
    by_cases hready : cells.next cmd ≤ clk
    · rw [if_neg (by omega)]
      by_cases hstop : addr (level + 1) < 0 ∨ level = table.scope cmd ∨ count = 0
      · rw [if_pos hstop]
        refine ⟨true, rfl, iff_of_true rfl ?_⟩
        rw [boundsMet_iff_of_stop (hcount ▸ hstop)]
        exact hself.mp hready
      · rw [if_neg hstop]
        push Not at hstop
        obtain ⟨hnext, hscope, hsome⟩ := hstop
        have hlt := haddr level (hcount ▸ hsome)
        have hrange : (addr (level + 1)).toNat < count := by omega
        rw [dif_pos hrange, boundsMet_iff_of_continue hnext hscope (hcount ▸ hsome)]
        obtain ⟨ok, hok, hiff⟩ := ih _ (hchild ⟨_, hrange⟩) (by
          intro k hk
          rcases hk.lt_or_eq with hlt' | rfl
          · rw [Function.update_of_ne (by omega)]
            exact hpos k (by omega)
          · rw [Function.update_self]
            exact Int.toNat_of_nonneg hnext)
        refine ⟨ok, hok, hiff.trans ?_⟩
        exact ⟨fun h => ⟨hself.mp hready, h⟩, fun h => h.2⟩
    · have hlow : cells.next cmd ≠ -1 ∧ clk < cells.next cmd := by omega
      rw [if_pos hlow]
      refine ⟨false, rfl, iff_of_false Bool.false_ne_true ?_⟩
      intro hmet
      exact hready (hself.mpr (hmet level visits_self))

variable (cmd) in
/-- The walk of `get_next` collects the bounds of the history. -/
theorem TreeRecords.getNextFrom {level : ℕ} {d : Dram Cmd State level} {pos : ℕ → ℤ} {now : ℤ}
    (h : TreeRecords table children past pos d) (hpos : ∀ k ≤ level, pos k = addr k)
    (haddr : InTree children addr) (hscope : level ≤ table.scope cmd) (hnow : -1 ≤ now) :
    ∃ time, d.getNextFrom table cmd addr now = some time ∧
      ∀ m, time ≤ m ↔ now ≤ m ∧ BoundsMet table children past cmd addr level m := by
  induction d generalizing pos now with
  | @node level cells count child ih =>
    obtain ⟨hnode, hcount, hchild⟩ := h
    have hself (m : ℤ) : max now (cells.next cmd) ≤ m ↔
        now ≤ m ∧ ∀ b, LowerBound table past level cmd addr b → b ≤ m := by
      rw [max_le_iff, hnode.next_le]
      simp only [lowerBound_congr hpos]
      constructor
      · exact fun h => ⟨h.1, h.2.2⟩
      · exact fun h => ⟨h.1, hnow.trans h.1, h.2⟩
    unfold Dram.getNextFrom
    by_cases hgo : level < table.scope cmd ∧ count ≠ 0 ∧ 0 ≤ addr (level + 1)
    · rw [if_pos hgo]
      obtain ⟨hbelow, hsome, hnext⟩ := hgo
      have hlt := haddr level (hcount ▸ hsome)
      have hrange : (addr (level + 1)).toNat < count := by omega
      rw [dif_pos hrange]
      obtain ⟨time, htime, hiff⟩ := ih _ (hchild ⟨_, hrange⟩) (by
        intro k hk
        rcases hk.lt_or_eq with hlt' | rfl
        · rw [Function.update_of_ne (by omega)]
          exact hpos k (by omega)
        · rw [Function.update_self]
          exact Int.toNat_of_nonneg hnext) hbelow (hnow.trans (le_max_left _ _))
      refine ⟨time, htime, ?_⟩
      intro m
      rw [hiff, hself, boundsMet_iff_of_continue hnext hbelow.ne (hcount ▸ hsome), and_assoc]
    · rw [if_neg hgo]
      refine ⟨_, rfl, ?_⟩
      intro m
      rw [hself, boundsMet_iff_of_stop]
      rw [← hcount]
      omega

end Answers

/-! ## Readiness over whole runs -/

/-- A row of the first bank of a channel. -/
def firstBank (level : ℕ) : ℤ :=
  if level = 3 then 5 else 0

/-- The first bank lies in the tree of this device. -/
theorem inTree_firstBank :
    InTree (childCount (Ddr3.spec Ddr3.speed1600K 2 8)) firstBank := by
  intro k hk
  match k with
  | 0 => decide
  | 1 => decide
  | _ + 2 =>
    refine absurd ?_ hk
    unfold childCount
    exact if_neg (by simp [Ddr3.spec, Ddr3.rowLevel])

/-- In every run of a channel a command is found ready at a clock exactly when no timing parameter
of the standard, read over the whole history, forbids it then. -/
theorem check_iff_boundsMet {spec : DramSpec Cmd State} {id : ℤ} {past : List (Issued Cmd)}
    {s : Channel Cmd State} {cmd : Cmd} {addr : ℕ → ℤ} {clk : ℤ}
    (h : IssuesTo spec id past s) (hpast : ∀ i ∈ past, 0 ≤ i.clk) (hid : addr 0 = id)
    (haddr : InTree (childCount spec) addr) (hclk : 0 ≤ clk) :
    ∃ ok, s.root.check spec.toTimingTable cmd addr clk = some ok ∧
      (ok = true ↔ BoundsMet spec.toTimingTable (childCount spec) past cmd addr 0 clk) := by
  refine (h.records hpast).check cmd ?_ haddr (by omega)
  intro k hk
  rw [Nat.le_zero.mp hk, hid]

/-- The theorem at a read of a bank that was activated at clock 10. -/
theorem check_iff_boundsMet_activated :
    ∃ ch past, IssuesTo (Ddr3.spec Ddr3.speed1600K 2 8) 0 past ch ∧ past.length = 1 ∧
      ∃ ok, ch.root.check (Ddr3.spec Ddr3.speed1600K 2 8).toTimingTable .rd firstBank 20 =
        some ok ∧
      (ok = true ↔ BoundsMet (Ddr3.spec Ddr3.speed1600K 2 8).toTimingTable
        (childCount (Ddr3.spec Ddr3.speed1600K 2 8)) past .rd firstBank 0 20) :=
  have h : IssuesTo (Ddr3.spec Ddr3.speed1600K 2 8) 0 [⟨.act, firstBank, 10⟩] _ :=
    .issue ⟨Ddr3.Command.act, firstBank, 10⟩ .start rfl
  ⟨_, _, h, rfl, check_iff_boundsMet h (by simp) rfl inTree_firstBank (by decide)⟩

/-- In every run `get_next` is the earliest clock, from the last command on, at which the history
allows the command. -/
theorem getNext_isLeast {spec : DramSpec Cmd State} {id : ℤ} {past : List (Issued Cmd)}
    {s : Channel Cmd State} {cmd : Cmd} {addr : ℕ → ℤ}
    (h : IssuesTo spec id past s) (hpast : ∀ i ∈ past, 0 ≤ i.clk) (hid : addr 0 = id)
    (haddr : InTree (childCount spec) addr) :
    ∃ time, s.getNext spec cmd addr = some time ∧
      IsLeast {clk | s.curClk ≤ clk ∧
        BoundsMet spec.toTimingTable (childCount spec) past cmd addr 0 clk} time := by
  have hcur : 0 ≤ s.curClk := by
    cases h with
    | start => exact le_rfl
    | issue i before update =>
      obtain ⟨root, hroot, rfl⟩ := Option.map_eq_some_iff.mp update
      exact hpast i (List.mem_cons_self ..)
  obtain ⟨time, htime, hiff⟩ := (h.records hpast).getNextFrom cmd
    (by
      intro k hk
      rw [Nat.le_zero.mp hk, hid])
    haddr (Nat.zero_le _) (show -1 ≤ s.curClk by omega)
  refine ⟨time, htime, (hiff time).mp le_rfl, ?_⟩
  intro m hm
  exact (hiff m).mpr hm

/-- The theorem at a read of a bank that was activated at clock 10. -/
theorem getNext_isLeast_activated :
    ∃ ch past, IssuesTo (Ddr3.spec Ddr3.speed1600K 2 8) 0 past ch ∧ past.length = 1 ∧
      ∃ time, ch.getNext (Ddr3.spec Ddr3.speed1600K 2 8) .rd firstBank = some time ∧
        IsLeast {clk | ch.curClk ≤ clk ∧
          BoundsMet (Ddr3.spec Ddr3.speed1600K 2 8).toTimingTable
            (childCount (Ddr3.spec Ddr3.speed1600K 2 8)) past .rd firstBank 0 clk} time :=
  have h : IssuesTo (Ddr3.spec Ddr3.speed1600K 2 8) 0 [⟨.act, firstBank, 10⟩] _ :=
    .issue ⟨Ddr3.Command.act, firstBank, 10⟩ .start rfl
  ⟨_, _, h, rfl, getNext_isLeast h (by simp) rfl inTree_firstBank⟩

end MacSim.Analysis.Ramulator
