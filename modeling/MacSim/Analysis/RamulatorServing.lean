import MacSim.Analysis.RamulatorScheduling

/-!
# Requests under way

Every node of a channel counts the requests that are under way below it.  The counters are those
of the requests that were started and not finished, at every node, so that none of them goes below
zero.
-/

set_option autoImplicit false

namespace MacSim.Analysis.Ramulator

open MacSim.Model.Ramulator

section Counters

variable {Cmd State : Type} {children : ℕ → ℕ} {addrs : List (ℕ → ℤ)} {addr : ℕ → ℤ}
  {level : ℕ} {pos : ℕ → ℤ}

/-- The address names the node of this level at `pos`, or one below it. -/
def Below (addr : ℕ → ℤ) (level : ℕ) (pos : ℕ → ℤ) : Prop :=
  ∀ k ≤ level, addr k = pos k

instance (addr : ℕ → ℤ) (level : ℕ) (pos : ℕ → ℤ) : Decidable (Below addr level pos) :=
  inferInstanceAs (Decidable (∀ k ≤ level, addr k = pos k))

/-- How many of the requests are below a node. -/
def numBelow (addrs : List (ℕ → ℤ)) (level : ℕ) (pos : ℕ → ℤ) : ℕ :=
  addrs.countP fun addr => Below addr level pos

/-- The counter of a node is right, and it remembers when it left zero. -/
structure CellsCount (addrs : List (ℕ → ℤ)) (level : ℕ) (pos : ℕ → ℤ)
    (cells : DramCells Cmd State) : Prop where
  id_eq : cells.id = pos level
  curServing_eq : cells.curServing = numBelow addrs level pos
  begin_ne : 0 < cells.curServing → cells.beginOfServing ≠ -1

/-- All counters of a tree are right. -/
def Counts (children : ℕ → ℕ) (addrs : List (ℕ → ℤ)) :
    {level : ℕ} → (ℕ → ℤ) → Dram Cmd State level → Prop
  | level, pos, .node cells count child =>
    CellsCount addrs level pos cells ∧ count = children level ∧
      ∀ i : Fin count,
        Counts children addrs (Function.update pos (level + 1) ((i : ℕ) : ℤ)) (child i)

/-- An address below a place adds one to the count there. -/
theorem numBelow_cons_of_below (addrs : List (ℕ → ℤ)) (h : Below addr level pos) :
    numBelow (addr :: addrs) level pos = numBelow addrs level pos + 1 :=
  List.countP_cons_of_pos (by simpa using h)

/-- An address elsewhere adds nothing to the count. -/
theorem numBelow_cons_of_not_below (h : ¬Below addr level pos) :
    numBelow (addr :: addrs) level pos = numBelow addrs level pos :=
  List.countP_cons_of_neg (by simpa using h)

/-- A request elsewhere is not counted. -/
theorem counts_cons_of_not_below {d : Dram Cmd State level} (h : ¬Below addr level pos) :
    Counts children (addr :: addrs) pos d ↔ Counts children addrs pos d := by
  induction d generalizing pos with
  | @node level cells count child ih =>
    have hcells : CellsCount (addr :: addrs) level pos cells ↔ CellsCount addrs level pos cells := by
      constructor
      · intro hc
        exact ⟨hc.id_eq, by rw [hc.curServing_eq, numBelow_cons_of_not_below h], hc.begin_ne⟩
      · intro hc
        exact ⟨hc.id_eq, by rw [hc.curServing_eq, numBelow_cons_of_not_below h], hc.begin_ne⟩
    have hchild (i : Fin count) :
        Counts children (addr :: addrs) (Function.update pos (level + 1) ((i : ℕ) : ℤ)) (child i) ↔
          Counts children addrs (Function.update pos (level + 1) ((i : ℕ) : ℤ)) (child i) := by
      apply ih i
      intro hbelow
      apply h
      intro k hk
      rw [hbelow k (by omega), Function.update_of_ne (by omega)]
    simp only [Counts, hcells, hchild]

/-- The counts do not depend on the order of the addresses. -/
theorem Counts.perm {addrs' : List (ℕ → ℤ)} {d : Dram Cmd State level}
    (h : Counts children addrs pos d) (hperm : addrs.Perm addrs') :
    Counts children addrs' pos d := by
  induction d generalizing pos with
  | @node level cells count child ih =>
    obtain ⟨hcells, hcount, hchild⟩ := h
    refine ⟨⟨hcells.id_eq, ?_, hcells.begin_ne⟩, hcount, fun i => ih i (hchild i)⟩
    rw [hcells.curServing_eq]
    exact congrArg _ (hperm.countP_eq _)

/-- Nothing is under way in a new tree. -/
theorem counts_construct (spec : DramSpec Cmd State) (below : ℕ) {id : ℤ}
    (hbelow : below = spec.rowLevel - 1 - level) (hid : id = pos level) :
    Counts (childCount spec) [] pos (Dram.construct spec below id : Dram Cmd State level) := by
  have hcells : CellsCount [] level pos (Dram.newCells spec level id) :=
    ⟨hid, rfl, fun h => absurd h (lt_irrefl 0)⟩
  induction below generalizing level id pos with
  | zero =>
    refine ⟨hcells, ?_, fun n => n.elim0⟩
    unfold childCount
    rw [if_neg (by omega)]
  | succ below ih =>
    refine ⟨hcells, ?_, ?_⟩
    · unfold childCount
      rw [if_pos (by omega)]
    · intro n
      have hn : ((n : ℕ) : ℤ) = Function.update pos (level + 1) ((n : ℕ) : ℤ) (level + 1) := by
        rw [Function.update_self]
      exact ih (by omega) hn ⟨hn, rfl, fun h => absurd h (lt_irrefl 0)⟩

/-- The address goes down to a bank that is there. -/
structure WellPlaced (children : ℕ → ℕ) (bankLevel : ℕ) (addr : ℕ → ℤ) : Prop where
  nonneg : ∀ k, children k ≠ 0 → 0 ≤ addr (k + 1)
  inTree : InTree children addr
  deep : ∀ k, bankLevel ≤ k → children k = 0

/-- A walk that changes the counter of each node on its way to a bank. -/
theorem Counts.update {bankLevel : ℕ} {delta clk : ℤ} {addrs' : List (ℕ → ℤ)}
    {d : Dram Cmd State level} (h : Counts children addrs pos d)
    (hplaced : WellPlaced children bankLevel addr) (hbelow : Below addr level pos)
    (hcells : ∀ (level : ℕ) (pos : ℕ → ℤ) (cells : DramCells Cmd State), Below addr level pos →
      CellsCount addrs level pos cells → ∃ cells', Dram.servingCells delta clk cells =
        some cells' ∧ CellsCount addrs' level pos cells')
    (helse : ∀ (level : ℕ) (pos : ℕ → ℤ) (d : Dram Cmd State level), ¬Below addr level pos →
      Counts children addrs pos d → Counts children addrs' pos d) :
    ∃ d', d.updateServingRequests bankLevel addr delta clk = some d' ∧
      Counts children addrs' pos d' := by
  induction d generalizing pos with
  | @node level cells count child ih =>
    obtain ⟨hnode, hcount, hchild⟩ := h
    obtain ⟨cells', hcells', hnode'⟩ := hcells level pos cells hbelow hnode
    have hid : cells.id = addr level := by
      rw [hnode.id_eq, hbelow level le_rfl]
    unfold Dram.updateServingRequests
    rw [if_neg (not_not.mpr hid), hcells']
    dsimp only
    by_cases hleaf : count = 0
    · rw [if_pos (.inr (.inl hleaf))]
      refine ⟨_, rfl, hnode', hcount, ?_⟩
      intro i
      exact absurd i.2 (by omega)
    · have hsome : children level ≠ 0 := hcount ▸ hleaf
      have hnext := hplaced.nonneg level hsome
      have hlt := hplaced.inTree level hsome
      have hlevel : ¬bankLevel < level := fun hlt => hsome (hplaced.deep level hlt.le)
      have hrange : (addr (level + 1)).toNat < count := by omega
      have hindex : (((addr (level + 1)).toNat : ℕ) : ℤ) = addr (level + 1) :=
        Int.toNat_of_nonneg hnext
      have hpath : Below addr (level + 1)
          (Function.update pos (level + 1) (((addr (level + 1)).toNat : ℕ) : ℤ)) := by
        intro k hk
        rcases hk.lt_or_eq with hlt' | rfl
        · rw [Function.update_of_ne (by omega)]
          exact hbelow k (by omega)
        · rw [Function.update_self, hindex]
      rw [if_neg (by omega), dif_pos hrange]
      obtain ⟨changed, hchanged, hcounts⟩ := ih _ (hchild ⟨_, hrange⟩) hpath
      rw [hchanged]
      refine ⟨_, rfl, hnode', hcount, ?_⟩
      intro i
      by_cases hi : i = ⟨(addr (level + 1)).toNat, hrange⟩
      · subst hi
        rw [Function.update_self]
        exact hcounts
      · rw [Function.update_of_ne hi]
        apply helse _ _ _ _ (hchild i)
        intro hbelow'
        apply hi
        have heq := hbelow' (level + 1) le_rfl
        rw [Function.update_self] at heq
        exact Fin.ext (by simp only; omega)

/-- A request that starts is counted at every node on its way. -/
theorem Counts.add {bankLevel : ℕ} {d : Dram Cmd State level}
    (h : Counts children addrs pos d) (clk : ℤ) (hplaced : WellPlaced children bankLevel addr)
    (hbelow : Below addr level pos) (hclk : clk ≠ -1) :
    ∃ d', d.updateServingRequests bankLevel addr 1 clk = some d' ∧
      Counts children (addr :: addrs) pos d' := by
  refine h.update hplaced hbelow ?_ fun level pos d hnot hd => (counts_cons_of_not_below hnot).mpr hd
  intro level pos cells hbelow hcells
  have hcur := hcells.curServing_eq
  have hnew := numBelow_cons_of_below addrs hbelow
  unfold Dram.servingCells
  dsimp only
  rw [if_neg (by omega)]
  by_cases hfirst : cells.curServing + 1 = 1
  · rw [if_pos ⟨rfl, hfirst⟩]
    refine ⟨_, rfl, hcells.id_eq, ?_, fun _ => hclk⟩
    dsimp only
    omega
  · rw [if_neg (by omega), if_neg (by omega)]
    refine ⟨_, rfl, hcells.id_eq, ?_, fun _ => hcells.begin_ne (by omega)⟩
    dsimp only
    omega

/-- A request that was counted and is done is counted no more. -/
theorem Counts.remove {bankLevel : ℕ} {d : Dram Cmd State level}
    (h : Counts children (addr :: addrs) pos d) (clk : ℤ) (hplaced : WellPlaced children bankLevel addr)
    (hbelow : Below addr level pos) :
    ∃ d', d.updateServingRequests bankLevel addr (-1) clk = some d' ∧
      Counts children addrs pos d' := by
  refine h.update hplaced hbelow ?_ fun level pos d hnot hd => (counts_cons_of_not_below hnot).mp hd
  intro level pos cells hbelow hcells
  have hcur := hcells.curServing_eq
  have hold := numBelow_cons_of_below addrs hbelow
  have hbegin := hcells.begin_ne (by omega)
  unfold Dram.servingCells
  dsimp only
  rw [if_neg (by omega), if_neg (by omega), if_neg (by simp [hbegin])]
  refine ⟨_, rfl, hcells.id_eq, ?_, fun _ => hbegin⟩
  dsimp only
  omega

/-! ## Updates that leave counters alone -/

/-- The part of the cells that counts. -/
def servingPart (cells : DramCells Cmd State) : DramCells Unit Unit where
  id := cells.id
  state := ()
  rowState := fun _ => none
  curServing := cells.curServing
  beginOfServing := cells.beginOfServing
  next := fun _ => -1
  prev := fun _ => []

/-- The counts are those of the requests in service only. -/
theorem counts_map {d : Dram Cmd State level} :
    Counts children addrs pos (d.map servingPart) ↔ Counts children addrs pos d := by
  induction d generalizing pos with
  | @node level cells count child ih =>
    have hcells : CellsCount addrs level pos (servingPart cells) ↔ CellsCount addrs level pos cells :=
      ⟨fun h => ⟨h.id_eq, h.curServing_eq, h.begin_ne⟩,
        fun h => ⟨h.id_eq, h.curServing_eq, h.begin_ne⟩⟩
    simp only [Dram.map, Counts, hcells, ih]

/-- A part of the cells that does not count is the same after the walk of a request. -/
theorem updateServing_map {Cmd' State' : Type} (f : DramCells Cmd State → DramCells Cmd' State')
    (hf : ∀ (cells : DramCells Cmd State) (cur begin : ℤ),
      f { cells with curServing := cur, beginOfServing := begin } = f cells)
    {bankLevel : ℕ} {delta clk : ℤ} {d d' : Dram Cmd State level}
    (h : d.updateServingRequests bankLevel addr delta clk = some d') : d'.map f = d.map f := by
  have hcells (cells cells' : DramCells Cmd State)
      (hc : Dram.servingCells delta clk cells = some cells') : f cells' = f cells := by
    unfold Dram.servingCells at hc
    dsimp only at hc
    split at hc
    · cases hc
    · split at hc
      · cases hc
        exact hf ..
      · split at hc
        · cases hc
        · cases hc
          exact hf cells _ cells.beginOfServing
  induction d with
  | @node level cells count child ih =>
    unfold Dram.updateServingRequests at h
    split at h
    · cases h
    · split at h
      · cases h
      · rename_i cells' hcells'
        have hsame := hcells cells cells' hcells'
        split at h
        · cases h
          simp only [Dram.map, hsame]
        · split at h
          · rename_i hrange
            obtain ⟨below, hbelow, rfl⟩ := Option.map_eq_some_iff.mp h
            simp only [Dram.map, hsame]
            congr 1
            funext n
            by_cases hn : n = ⟨(addr (level + 1)).toNat, hrange⟩
            · subst hn
              rw [Function.update_self, ih _ hbelow]
            · rw [Function.update_of_ne hn]
          · cases h

end Counters

end MacSim.Analysis.Ramulator
