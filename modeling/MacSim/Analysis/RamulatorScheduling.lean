import MacSim.Computation.Outcome
import MacSim.Analysis.RamulatorTiming
import MacSim.Analysis.RamulatorRows

/-!
# Choosing a request

The scheduler asks the channel about every request of a queue.  While the queues hold requests that
fit the channel, every question is answered, and every policy chooses a request of the queue unless
the queue is empty.
-/

set_option autoImplicit false

namespace MacSim.Analysis.Ramulator

open MacSim.Model.Ramulator MacSim.Model.Ramulator.Ddr3 MacSim.Computation

/-! ## Precharges after an access -/

/-- The parameters on reads and those on reads with a precharge come in pairs, and on writes. -/
theorem timing_autoPrecharge (s : SpeedEntry) (level : ℕ) (c cmd : Command)
    (hcmd : cmd = .rd ∨ cmd = .wr) :
    ∀ t ∈ timing s level c,
      (t.cmd = cmd → { t with cmd := autoPrecharge cmd } ∈ timing s level c) ∧
        (t.cmd = autoPrecharge cmd → { t with cmd := cmd } ∈ timing s level c) := by
  match level with
  | 0 => rcases hcmd with rfl | rfl <;> cases c <;> simp [timing, channelTiming, wait, autoPrecharge]
  | 1 =>
    rcases hcmd with rfl | rfl <;> cases c <;>
      simp [timing, rankTiming, rankReadTiming, rankWriteTiming, wait, waitBeside, autoPrecharge]
  | 2 => rcases hcmd with rfl | rfl <;> cases c <;> simp [timing, bankTiming, wait, autoPrecharge]
  | _ + 3 => simp [timing]

section Pairs

variable {k : ControllerKnobs} {past : List (Issued Command)} {cmd : Command}

/-- What binds one command binds another whose parameters are the same. -/
theorem LowerBound.of_pairs {table : TimingTable Command} {level : ℕ} {cmd' : Command}
    {pos : ℕ → ℤ} {b : ℤ}
    (hpairs : ∀ c, ∀ t ∈ table.timing level c, t.cmd = cmd →
      { t with cmd := cmd' } ∈ table.timing level c)
    (h : LowerBound table past level cmd pos b) : LowerBound table past level cmd' pos b := by
  cases h with
  | @own c t j p listed for_cmd own far issued =>
    exact LowerBound.own (t := { t with cmd := cmd' }) (hpairs c t listed for_cmd) rfl own far
      issued
  | @sibling t i listed for_cmd sibling issued above beside =>
    exact LowerBound.sibling (t := { t with cmd := cmd' }) (hpairs _ t listed for_cmd) rfl sibling
      issued above beside

/-- The automatic precharge has the bounds of its command. -/
theorem lowerBound_autoPrecharge (hcmd : cmd = .rd ∨ cmd = .wr) {level : ℕ} {pos : ℕ → ℤ} {b : ℤ} :
    LowerBound k.dram.toTimingTable past level (autoPrecharge cmd) pos b ↔
      LowerBound k.dram.toTimingTable past level cmd pos b :=
  ⟨.of_pairs fun c t ht => (timing_autoPrecharge k.speed level c cmd hcmd t ht).2,
    .of_pairs fun c t ht => (timing_autoPrecharge k.speed level c cmd hcmd t ht).1⟩

/-- An access with a precharge is ready when the access is. -/
theorem boundsMet_autoPrecharge (hcmd : cmd = .rd ∨ cmd = .wr) {children : ℕ → ℕ} {addr : ℕ → ℤ}
    {clk : ℤ} :
    BoundsMet k.dram.toTimingTable children past (autoPrecharge cmd) addr 0 clk ↔
      BoundsMet k.dram.toTimingTable children past cmd addr 0 clk := by
  have hscope : k.dram.toTimingTable.scope (autoPrecharge cmd) =
      k.dram.toTimingTable.scope cmd := by
    rcases hcmd with rfl | rfl <;> rfl
  unfold BoundsMet Visits
  simp only [hscope, lowerBound_autoPrecharge hcmd]

end Pairs

/-! ## Requests that fit the channel -/

/-- A read or write of a row of the channel, or a refresh or a change of the power mode of a rank
of it. -/
inductive FitsChannel (k : ControllerKnobs) (req : Request) : Prop
  | access (type_eq : req.type = .read ∨ req.type = .write) (id_eq : req.addrVec 0 = k.id)
      {r b : ℕ} (haddr : InBank k.ranks k.banks req.addrVec r b) : FitsChannel k req
  | rank (type_eq : req.type = .refresh ∨ req.type = .powerDown ∨ req.type = .selfRefresh)
      (id_eq : req.addrVec 0 = k.id) {r : ℕ} (haddr : InRank k.ranks req.addrVec r)
      (no_bank : req.addrVec 2 < 0) : FitsChannel k req

/-- The channel of a controller: it represents ranks and banks, and it records its history. -/
structure ChannelSound (k : ControllerKnobs) (past : List (Issued Command)) (v : Banks)
    (root : Dram Command State 0) : Prop where
  shows : Shows k.ranks k.banks v root
  records : TreeRecords k.dram.toTimingTable (childCount k.dram) past (fun _ => k.id) root

/-- The tree has ranks at the root, banks in a rank and nothing in a bank. -/
theorem childCount_dram (k : ControllerKnobs) (level : ℕ) :
    childCount k.dram level = if level = 0 then k.ranks else if level = 1 then k.banks else 0 := by
  match level with
  | 0 => rfl
  | 1 => rfl
  | _ + 2 => exact if_neg (by simp [ControllerKnobs.dram, spec, rowLevel])

/-- An address with a rank and a bank lies in the tree. -/
theorem inTree_of {k : ControllerKnobs} {addr : ℕ → ℤ} (hrank : addr 1 < k.ranks)
    (hbank : addr 2 < k.banks) : InTree (childCount k.dram) addr := by
  intro level hlevel
  rw [childCount_dram] at hlevel ⊢
  match level with
  | 0 => exact hrank
  | 1 => exact hbank
  | _ + 2 => simp at hlevel

/-- The address of a bank lies in the tree. -/
theorem InBank.inTree {k : ControllerKnobs} {addr : ℕ → ℤ} {r b : ℕ}
    (h : InBank k.ranks k.banks addr r b) : InTree (childCount k.dram) addr := by
  have hr := h.rank_lt
  have hb := h.bank_lt
  exact inTree_of (by rw [h.rank_eq]; omega) (by rw [h.bank_eq]; omega)

/-- An address that fits the channel lies in the tree. -/
theorem FitsChannel.inTree {k : ControllerKnobs} {req : Request} (h : FitsChannel k req) :
    InTree (childCount k.dram) req.addrVec := by
  cases h with
  | access type_eq id_eq haddr => exact haddr.inTree
  | rank type_eq id_eq haddr no_bank =>
    have hr := haddr.rank_lt
    exact inTree_of (by rw [haddr.rank_eq]; omega) (by omega)

/-- An address that fits the channel has its number. -/
theorem FitsChannel.id_eq {k : ControllerKnobs} {req : Request} (h : FitsChannel k req) :
    req.addrVec 0 = k.id := by
  cases h <;> assumption

/-- The program ends with a result, and the result satisfies `Q`. -/
abbrev Succeeds {α : Type} (x : Except Fault α) (Q : α → Prop) : Prop :=
  Meets x Q fun _ => False

section Questions

variable {k : ControllerKnobs} {past : List (Issued Command)} {v : Banks} {c : Controller}
  {req : Request}

/-- What the command of a request is, and what it relies on. -/
theorem getFirstCmd_succeeds (h : ChannelSound k past v c.channel.root) (hreq : FitsChannel k req) :
    Succeeds (c.getFirstCmd k req) fun cmd =>
      c.channel.root.decode k.dram (translate req.type) req.addrVec = some cmd := by
  have hwants : ∃ r b, Wants k.ranks k.banks req.addrVec r b (translate req.type) := by
    cases hreq with
    | access type_eq id_eq haddr =>
      refine ⟨_, _, .access ?_ haddr⟩
      rcases type_eq with h | h <;> rw [h] <;> simp [Ddr3.translate]
    | rank type_eq id_eq haddr no_bank =>
      refine ⟨_, 0, .rank ?_ haddr⟩
      rcases type_eq with h | h | h <;> rw [h] <;> simp [Ddr3.translate]
  obtain ⟨r, b, hwants⟩ := hwants
  obtain ⟨cmd, hdecode, -⟩ := h.shows.serve (s := k.speed) hwants
  unfold Controller.getFirstCmd
  rw [show c.channel.root.decode k.dram (translate req.type) req.addrVec = some cmd from hdecode]
  rfl

/-- A command is found ready exactly when the history allows it. -/
theorem isReadyCmd_succeeds (h : ChannelSound k past v c.channel.root) {cmd : Command}
    {addr : ℕ → ℤ} (hid : addr 0 = k.id) (haddr : InTree (childCount k.dram) addr)
    (hclk : 0 ≤ c.clk) :
    Succeeds (c.isReadyCmd k cmd addr) fun ready => ready = true ↔
      BoundsMet k.dram.toTimingTable (childCount k.dram) past cmd addr 0 c.clk := by
  obtain ⟨ok, hok, hiff⟩ := h.records.check cmd
    (by
      intro level hlevel
      rw [Nat.le_zero.mp hlevel, hid])
    haddr (show -1 ≤ c.clk by omega)
  unfold Controller.isReadyCmd
  rw [hok]
  exact hiff

/-- The question whether a request is ready has an answer. -/
theorem isReady_succeeds (h : ChannelSound k past v c.channel.root) (hreq : FitsChannel k req)
    (hclk : 0 ≤ c.clk) : Succeeds (c.isReady k req) fun _ => True :=
  (getFirstCmd_succeeds h hreq).bind fun _ _ =>
    (isReadyCmd_succeeds h hreq.id_eq hreq.inTree hclk).mono (fun _ _ => trivial) fun _ he => he

/-- No rank request hits a row. -/
theorem checkRow_rank {d : Dram Command State 0} {addr : ℕ → ℤ} {r : ℕ}
    {table : (level : ℕ) → Command → Option (Dram Command State level → ℤ → Option Bool)}
    (h : Shows k.ranks k.banks v d) (haddr : InRank k.ranks addr r) (hbank : addr 2 < 0)
    {cmd : Command} (htable : ∀ level, table level cmd = none) :
    d.checkRow table cmd addr = some false := by
  obtain ⟨cells, count, rank⟩ := d
  obtain ⟨hcount, hranks⟩ := h
  rw [checkRow_descend (i := r) (htable 0) haddr.rank_eq (hcount ▸ haddr.rank_lt)]
  generalize rank ⟨r, _⟩ = d
  obtain ⟨cells, count, bank⟩ := d
  rw [Dram.checkRow, htable]
  exact if_pos (.inl hbank)

/-- A read or a write is translated to an access. -/
theorem translate_access (htype : req.type = .read ∨ req.type = .write) :
    translate req.type = .rd ∨ translate req.type = .wr := by
  rcases htype with h | h <;> rw [h] <;> simp [Ddr3.translate]

/-- The question for a row hit is answered, by the open row of the bank. -/
theorem isRowHit_eq (h : ChannelSound k past v c.channel.root) (hreq : FitsChannel k req) :
    ∃ hit, c.isRowHit k req = .ok hit ∧
      ∀ r b, InBank k.ranks k.banks req.addrVec r b → (req.type = .read ∨ req.type = .write) →
        hit = decide (v.row r b = some (req.addrVec 3)) := by
  unfold Controller.isRowHit
  cases hreq with
  | @access type_eq id_eq r b haddr =>
    have hhit := h.shows.checkRowHit (s := k.speed) (translate_access type_eq) haddr
    rw [show c.channel.root.checkRowHit k.dram (translate req.type) req.addrVec = _ from hhit]
    refine ⟨_, rfl, ?_⟩
    intro r' b' haddr' _
    have hr : r' = r := by
      have := haddr.rank_eq.symm.trans haddr'.rank_eq
      omega
    have hb : b' = b := by
      have := haddr.bank_eq.symm.trans haddr'.bank_eq
      omega
    rw [hr, hb]
  | rank type_eq id_eq haddr no_bank =>
    have hnone : ∀ level, k.dram.rowhit level (translate req.type) = none := by
      intro level
      apply if_neg
      rcases type_eq with h | h | h <;> rw [h] <;> simp [Ddr3.translate]
    unfold Dram.checkRowHit
    rw [checkRow_rank h.shows haddr no_bank hnone]
    refine ⟨false, rfl, ?_⟩
    rintro r b - htype
    rcases type_eq with h | h | h <;> rw [h] at htype <;> simp at htype

/-- So is the question for an open row. -/
theorem isRowOpen_eq (h : ChannelSound k past v c.channel.root) (hreq : FitsChannel k req) :
    ∃ opened, c.isRowOpen k req = .ok opened := by
  unfold Controller.isRowOpen
  cases hreq with
  | @access type_eq id_eq r b haddr =>
    have hopen := h.shows.checkRowOpen (s := k.speed) (translate_access type_eq) haddr
    rw [show c.channel.root.checkRowOpen k.dram (translate req.type) req.addrVec = _ from hopen]
    exact ⟨_, rfl⟩
  | rank type_eq id_eq haddr no_bank =>
    have hnone : ∀ level, k.dram.rowopen level (translate req.type) = none := by
      intro level
      apply if_neg
      rcases type_eq with h | h | h <;> rw [h] <;> simp [Ddr3.translate]
    unfold Dram.checkRowOpen
    rw [checkRow_rank h.shows haddr no_bank hnone]
    exact ⟨false, rfl⟩

/-- The question whether a request hits its row has an answer. -/
theorem isRowHit_succeeds (h : ChannelSound k past v c.channel.root) (hreq : FitsChannel k req) :
    Succeeds (c.isRowHit k req) fun hit => c.isRowHit k req = .ok hit := by
  obtain ⟨hit, hhit, -⟩ := isRowHit_eq h hreq
  rw [hhit]
  exact rfl

/-- The question whether a row is open has an answer. -/
theorem isRowOpen_succeeds (h : ChannelSound k past v c.channel.root) (hreq : FitsChannel k req) :
    Succeeds (c.isRowOpen k req) fun _ => True := by
  obtain ⟨opened, hopened⟩ := isRowOpen_eq h hreq
  rw [hopened]
  exact trivial

/-! ## The policies -/

/-- The question whether a request is ready and hits has an answer. -/
theorem isReadyHit_succeeds (h : ChannelSound k past v c.channel.root) (hclk : 0 ≤ c.clk)
    (hreq : FitsChannel k req) : Succeeds (c.isReadyHit k req) fun _ => True := by
  refine (isReady_succeeds h hreq hclk).bind fun ready _ => ?_
  cases ready
  · exact trivial
  · exact (isRowHit_succeeds h hreq).mono (fun _ _ => trivial) fun _ he => he

/-- The question whether a policy favours a request has an answer. -/
theorem favoured_succeeds (h : ChannelSound k past v c.channel.root) (hclk : 0 ≤ c.clk)
    (policy : SchedulerType) (hreq : FitsChannel k req) :
    Succeeds (c.favoured k policy req) fun _ => True := by
  have hready := isReady_succeeds h hreq hclk
  cases policy with
  | fcfs => exact trivial
  | frfcfs => exact hready
  | frfcfsCap => exact hready.bind fun _ _ => trivial
  | frfcfsPriorHit => exact isReadyHit_succeeds h hclk hreq

/-- The comparison of two requests has an answer. -/
theorem comparesFirst_succeeds (h : ChannelSound k past v c.channel.root) (hclk : 0 ≤ c.clk)
    (policy : SchedulerType) {req1 req2 : Request} (hreq1 : FitsChannel k req1)
    (hreq2 : FitsChannel k req2) :
    Succeeds (c.comparesFirst k policy req1 req2) fun _ => True := by
  refine (favoured_succeeds h hclk policy hreq1).bind fun ready1 _ => ?_
  refine (favoured_succeeds h hclk policy hreq2).bind fun ready2 _ => ?_
  split <;> exact trivial

/-- The head is a request of the queue, at its place. -/
theorem headFrom_succeeds (h : ChannelSound k past v c.channel.root) (hclk : 0 ≤ c.clk)
    (policy : SchedulerType) {q : List Request} (hq : ∀ req ∈ q, FitsChannel k req)
    (rest : List Request) (head : Request) (best i : ℕ) (hhead : q[best]? = some head)
    (hrest : q.drop i = rest) :
    Succeeds (c.headFrom k policy head best i rest) fun found => q[found.2]? = some found.1 := by
  induction rest generalizing head best i with
  | nil => exact hhead
  | cons req rest ih =>
    have hreq : q[i]? = some req := by
      rw [← List.head?_drop, hrest]
      rfl
    have hnext : q.drop (i + 1) = rest := by
      rw [← List.drop_drop, hrest]
      rfl
    refine (comparesFirst_succeeds h hclk policy (hq head (List.mem_of_getElem? hhead))
      (hq req (List.mem_of_getElem? hreq))).bind fun stays _ => ?_
    cases stays
    · exact ih req i (i + 1) hreq hnext
    · exact ih head best (i + 1) hhead hnext

/-- Rows that are hit are hit by requests of the queue. -/
theorem hitReqs_succeeds (h : ChannelSound k past v c.channel.root) {q : List Request}
    (hq : ∀ req ∈ q, FitsChannel k req) :
    Succeeds (c.hitReqs k q) fun hits => hits ≠ [] → ∃ req ∈ q, c.isRowHit k req = .ok true := by
  induction q with
  | nil => exact fun hne => absurd rfl hne
  | cons req rest ih =>
    refine (isRowHit_succeeds h (hq req (List.mem_cons_self ..))).bind fun hit hhit => ?_
    refine (ih fun req' hreq' => hq req' (List.mem_cons_of_mem _ hreq')).bind fun hits hhits => ?_
    intro hne
    cases hit
    · obtain ⟨req', hreq', heq⟩ := hhits hne
      exact ⟨req', List.mem_cons_of_mem _ hreq', heq⟩
    · exact ⟨req, List.mem_cons_self .., hhit⟩

/-- The question whether a request would close a row that is hit has an answer, which is no for a
hit. -/
theorem violatesHit_succeeds (h : ChannelSound k past v c.channel.root) (hreq : FitsChannel k req)
    (hits : List (List ℤ)) :
    Succeeds (c.violatesHit k hits req) fun violates =>
      c.isRowHit k req = .ok true ∨ hits = [] → violates = false := by
  refine (isRowHit_succeeds h hreq).bind fun hit hhit => ?_
  cases hit
  · refine (isRowOpen_succeeds h hreq).bind fun opened _ => ?_
    rintro (heq | rfl)
    · rw [heq] at hhit
      cases hhit
    · simp
  · exact fun _ => rfl

/-- The head that spares hit rows is there if a request spares them. -/
theorem headSparing_succeeds (h : ChannelSound k past v c.channel.root) (hclk : 0 ≤ c.clk)
    {q : List Request} (hq : ∀ req ∈ q, FitsChannel k req) (hits : List (List ℤ))
    (rest : List Request) (head : Option (Request × ℕ)) (i : ℕ)
    (hhead : ∀ found, head = some found → q[found.2]? = some found.1)
    (hrest : q.drop i = rest) :
    Succeeds (c.headSparing k hits head i rest) fun found =>
      (∀ r, found = some r → q[r.2]? = some r.1) ∧
        ((head ≠ none ∨ ∃ req ∈ rest, c.isRowHit k req = .ok true ∨ hits = []) →
          found ≠ none) := by
  induction rest generalizing head i with
  | nil => exact ⟨hhead, fun hsome => by simpa using hsome⟩
  | cons req rest ih =>
    have hreq : q[i]? = some req := by
      rw [← List.head?_drop, hrest]
      rfl
    have hnext : q.drop (i + 1) = rest := by
      rw [← List.drop_drop, hrest]
      rfl
    have hfits := hq req (List.mem_of_getElem? hreq)
    have hnew : ∀ found, some (req, i) = some found → q[found.2]? = some found.1 := by
      rintro found heq
      cases heq
      exact hreq
    refine (violatesHit_succeeds h hfits hits).bind fun violates hviolates => ?_
    cases violates with
    | true =>
      refine (ih head (i + 1) hhead hnext).mono (fun found hfound => ⟨hfound.1, ?_⟩)
        fun _ he => he
      rintro (hne | ⟨req', hreq', hspares⟩)
      · exact hfound.2 (.inl hne)
      · rcases List.mem_cons.mp hreq' with rfl | hreq'
        · exact absurd (hviolates hspares) (by decide)
        · exact hfound.2 (.inr ⟨req', hreq', hspares⟩)
    | false =>
      cases head with
      | none =>
        exact (ih (some (req, i)) (i + 1) hnew hnext).mono
          (fun found hfound => ⟨hfound.1, fun _ => hfound.2 (.inl (by simp))⟩) fun _ he => he
      | some best =>
        have hbest := hhead best rfl
        refine (comparesFirst_succeeds h hclk .frfcfs (hq best.1 (List.mem_of_getElem? hbest))
          hfits).bind fun stays _ => ?_
        have hstays : ∀ found, (if stays = true then some best else some (req, i)) = some found →
            q[found.2]? = some found.1 := by
          cases stays
          · exact hnew
          · exact hhead
        exact (ih _ (i + 1) hstays hnext).mono
          (fun found hfound => ⟨hfound.1, fun _ => hfound.2 (.inl (by split <;> simp))⟩)
          fun _ he => he

/-- Every policy chooses a request of the queue unless the queue is empty. -/
theorem getHead_succeeds (h : ChannelSound k past v c.channel.root) (hclk : 0 ≤ c.clk)
    {q : List Request} (hq : ∀ req ∈ q, FitsChannel k req) :
    Succeeds (c.getHead k q) fun found =>
      (∀ r, found = some r → q[r.2]? = some r.1) ∧ (q ≠ [] → found ≠ none) := by
  cases q with
  | nil =>
    refine ⟨?_, fun hne => absurd rfl hne⟩
    rintro r ⟨⟩
  | cons req rest =>
    refine (headFrom_succeeds h hclk k.scheduler hq rest req 0 1 rfl rfl).bind
      fun head hhead => ?_
    have hsome : (∀ r, some head = some r → (req :: rest)[r.2]? = some r.1) ∧
        (req :: rest ≠ [] → some head ≠ none) := by
      refine ⟨?_, fun _ => by simp⟩
      rintro r heq
      cases heq
      exact hhead
    split
    · exact hsome
    · have hfits := hq head.1 (List.mem_of_getElem? hhead)
      refine (isReadyHit_succeeds h hclk hfits).bind fun hit _ => ?_
      cases hit
      · refine (hitReqs_succeeds h hq).bind fun hits hhits => ?_
        refine (headSparing_succeeds h hclk hq hits (req :: rest) none 0
          (by rintro found ⟨⟩) rfl).mono (fun found hfound => ⟨hfound.1, ?_⟩)
          fun _ he => he
        intro _
        apply hfound.2
        by_cases hne : hits = []
        · exact .inr ⟨req, List.mem_cons_self .., .inr hne⟩
        · obtain ⟨req', hreq', heq⟩ := hhits hne
          exact .inr ⟨req', hreq', .inl heq⟩
      · exact hsome

end Questions

end MacSim.Analysis.Ramulator
