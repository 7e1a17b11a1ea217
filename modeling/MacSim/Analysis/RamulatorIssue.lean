import MacSim.Analysis.RamulatorCycles

/-!
# Issuing a command

A command that fits the channel and that nothing forbids is issued without a failure: the channel
and the table of rows change together, the command joins the history, and the timing of the
history stays met.  The request it was issued for moves to where it waits next, or is answered.
-/

set_option autoImplicit false

namespace MacSim.Analysis.Ramulator

open MacSim.Model.Ramulator MacSim.Model.Ramulator.Ddr3 MacSim.Computation

/-! ## The channel and the table of rows -/

/-- A command for a bank or for a rank that fits it. -/
inductive CmdFits (k : ControllerKnobs) (v : Banks) (cmd : Command) (addr : ℕ → ℤ) : Prop
  | bank (for_bank : ForBank cmd) {r b : ℕ} (haddr : InBank k.ranks k.banks addr r b)
      (fits : Fits v k.banks cmd r b (addr 3)) : CmdFits k v cmd addr
  | rank (for_rank : ¬ForBank cmd) {r : ℕ} (haddr : InRank k.ranks addr r) {b : ℕ} {row : ℤ}
      (fits : Fits v k.banks cmd r b row) : CmdFits k v cmd addr

section Channels

variable {k : ControllerKnobs} {v : Banks} {cmd : Command} {addr : ℕ → ℤ} {clk : ℤ}

/-- The automatic precharge is for a bank where the command is. -/
theorem forBank_autoPrecharge : ForBank (autoPrecharge cmd) ↔ ForBank cmd := by
  cases cmd <;> decide

/-- The automatic precharge accesses where the command does. -/
theorem isAccessing_autoPrecharge : isAccessing (autoPrecharge cmd) = isAccessing cmd := by
  cases cmd <;> rfl

/-- The automatic precharge fits where the command does. -/
theorem CmdFits.autoPrecharge (h : CmdFits k v cmd addr) :
    CmdFits k v (autoPrecharge cmd) addr := by
  cases h with
  | bank for_bank haddr fits =>
    exact .bank (forBank_autoPrecharge.mpr for_bank) haddr fits.autoPrecharge
  | rank for_rank haddr fits =>
    exact .rank (fun h => for_rank (forBank_autoPrecharge.mp h)) haddr fits.autoPrecharge

/-- A command that fits changes the channel and the table of rows together. -/
theorem CmdFits.update {past : List (Issued Command)} {addrs : List (ℕ → ℤ)}
    {ch : Channel Command State} {table : RowTable} (h : CmdFits k v cmd addr)
    (hid : addr 0 = k.id) (hchannel : ChannelSound k past v ch.root)
    (hcounts : Counts (childCount k.dram) addrs (fun _ => k.id) ch.root)
    (hrows : Mirrors k.ranks k.banks k.id v table)
    (hpast : ∀ i ∈ past, 0 ≤ i.clk) (hclk : 0 ≤ clk) :
    ∃ v' ch' table', ch.update k.dram cmd addr clk = some ch' ∧
      table.update cmd addr clk = some table' ∧
      ChannelSound k (⟨cmd, addr, clk⟩ :: past) v' ch'.root ∧
      Counts (childCount k.dram) addrs (fun _ => k.id) ch'.root ∧
      Mirrors k.ranks k.banks k.id v' table' := by
  have hboth : ∃ v' d' table', ch.root.updateState k.dram cmd addr = some d' ∧
      table.update cmd addr clk = some table' ∧ Shows k.ranks k.banks v' d' ∧
      Mirrors k.ranks k.banks k.id v' table' := by
    cases h with
    | bank for_bank haddr fits =>
      obtain ⟨d', hd', hshows⟩ := hchannel.shows.updateState_bank (s := k.speed) for_bank haddr
        fun hact => (fits.act hact).2
      obtain ⟨table', htable', hmirrors⟩ := hrows.update_bank for_bank hid haddr fits clk
      exact ⟨_, d', table', hd', htable', hshows, hmirrors⟩
    | @rank for_rank r haddr b row fits =>
      obtain ⟨d', hd', hshows⟩ :=
        hchannel.shows.updateState_rank (s := k.speed) for_rank haddr b row
      obtain ⟨table', htable', hmirrors⟩ := hrows.update_rank for_rank hid haddr row fits clk
      exact ⟨_, d', table', hd', htable', hshows, hmirrors⟩
  obtain ⟨v', d', table', hd', htable', hshows, hmirrors⟩ := hboth
  have hrecords := (hchannel.records.updateState hd').updateTiming (i := ⟨cmd, addr, clk⟩)
    (fun level hlevel => absurd hlevel (Nat.not_lt_zero level)) (by
      intro i hi
      rcases List.mem_cons.mp hi with rfl | hi
      · exact hclk
      · exact hpast i hi)
  have hcounts' : Counts (childCount k.dram) addrs (fun _ => k.id)
      (d'.updateTiming k.dram.toTimingTable cmd addr clk) := by
    rw [← counts_map, updateTiming_map servingPart (fun _ _ _ => rfl),
      updateState_map servingPart
        (fun level => lambda_map servingPart (fun _ _ _ => rfl) level cmd) hd', counts_map]
    exact hcounts
  refine ⟨v', { root := d'.updateTiming k.dram.toTimingTable cmd addr clk, curClk := clk },
    table', ?_, htable', ⟨hshows.updateTiming .., hrecords⟩, hcounts', hmirrors⟩
  unfold Channel.update
  rw [hd']
  rfl

end Channels

/-! ## Precharges -/

section Precharging

variable {k : ControllerKnobs} {c : Controller} {log : List Arrival} {v : Banks} {owed : ℕ}
  {cmd : Command} {addr : ℕ → ℤ}

/-- The request hits the open row that the address names. -/
def HitsRow (k : ControllerKnobs) (c : Controller) (addr : ℕ → ℤ) (req : Request) : Prop :=
  c.isRowHit k req = .ok true ∧ req.addrVec = addr

/-- The hits of a row in a queue are counted, and there are some where a request hits. -/
theorem rowHits_succeeds (addr : ℕ → ℤ)
    (hchannel : ChannelSound k c.cmdTrace.reverse v c.channel.root)
    {q : List Request} (hq : ∀ req ∈ q, FitsChannel k req) :
    Succeeds (c.rowHits k addr q) fun n => (∃ req ∈ q, HitsRow k c addr req) → 0 < n := by
  induction q with
  | nil => exact fun h => by simp at h
  | cons req rest ih =>
    refine (isRowHit_succeeds hchannel (hq req (List.mem_cons_self ..))).bind fun hit hhit => ?_
    refine (ih fun req' hreq' => hq req' (List.mem_cons_of_mem _ hreq')).bind fun n hn => ?_
    rintro ⟨req', hreq', hhits⟩
    rcases List.mem_cons.mp hreq' with rfl | hreq'
    · rw [hhits.1] at hhit
      cases hhit
      rw [hhits.2, if_pos ⟨rfl, rfl⟩]
      omega
    · have hpos := hn ⟨req', hreq', hhits⟩
      split <;> omega

/-- The queue of reads or of writes, whichever is served. -/
theorem queue_served (c : Controller) :
    (if c.writeMode then c.writeq else c.readq) =
      c.queue (if c.writeMode then .writeq else .readq) := by
  cases c.writeMode <;> rfl

/-- An access may get a precharge; the assertion finds the request that hits the row. -/
theorem Sound.cmdIssueAutoprecharge (h : Sound k log v owed c)
    (haccess : isAccessing cmd = true → (cmd = .rd ∨ cmd = .wr) ∧
      ∃ name, (name = .actq ∨ name = if c.writeMode then .writeq else .readq) ∧
        ∃ req ∈ c.queue name, HitsRow k c addr req) :
    Succeeds (c.cmdIssueAutoprecharge k cmd addr) fun cmd' =>
      cmd' = cmd ∨ (cmd = .rd ∨ cmd = .wr) ∧ cmd' = autoPrecharge cmd := by
  unfold Controller.cmdIssueAutoprecharge
  split
  · rename_i hcase
    obtain ⟨hcmd, name, hname, hreq⟩ := haccess hcase.1
    have hqueue (name : Controller.QueueName) :=
      rowHits_succeeds addr h.channel fun req hreq => (h.queues name req hreq).fits
    have hhits : Succeeds (c.numRowHits k addr) fun n => 0 < n := by
      unfold Controller.numRowHits
      rw [queue_served]
      refine (hqueue _).bind fun n hn => ?_
      split
      · rename_i hzero
        rcases hname with rfl | rfl
        · exact (hqueue .actq).mono (fun n hn => hn hreq) fun _ he => he
        · have hpos := hn hreq
          omega
      · rename_i hpos
        exact Nat.pos_of_ne_zero hpos
    refine hhits.bind fun n hn => ?_
    rw [if_neg (by omega)]
    split
    · rcases hcmd with rfl | rfl
      · exact .inr ⟨.inl rfl, rfl⟩
      · exact .inr ⟨.inr rfl, rfl⟩
    · exact .inl rfl
  · exact .inl rfl

end Precharging

/-! ## Issuing -/

section Issuing

variable {k : ControllerKnobs} {c : Controller} {log : List Arrival} {v : Banks} {cmd : Command}
  {addr : ℕ → ℤ}

/-- A command that fits and is allowed now joins the history. -/
theorem Sound.issueCmd (h : Sound k log v 0 c) (hfresh : Fresh c)
    (hfits : CmdFits k v cmd addr) (hid : addr 0 = k.id)
    (hplaced : InTree (childCount k.dram) addr)
    (hready : BoundsMet k.dram.toTimingTable (childCount k.dram) c.cmdTrace.reverse cmd addr 0
      c.clk)
    (haccess : isAccessing cmd = true → (cmd = .rd ∨ cmd = .wr) ∧
      ∃ name, (name = .actq ∨ name = if c.writeMode then .writeq else .readq) ∧
        ∃ req ∈ c.queue name, HitsRow k c addr req) :
    Succeeds (c.issueCmd k cmd addr) fun c' =>
      ∃ v' cmd' channel rowtable,
        Sound k log v' (if isAccessing cmd then 1 else 0) c' ∧
        (cmd' = cmd ∨ cmd' = autoPrecharge cmd) ∧
        c' = { c with
          channel := channel
          rowtable := rowtable
          cmdTrace := c.cmdTrace ++ [{ cmd := cmd', addr := addr, clk := c.clk }] } := by
  unfold Controller.issueCmd
  refine (h.cmdIssueAutoprecharge haccess).bind fun cmd' hcmd' => ?_
  have hfits' : CmdFits k v cmd' addr := by
    rcases hcmd' with rfl | ⟨-, rfl⟩
    · exact hfits
    · exact hfits.autoPrecharge
  have hready' : BoundsMet k.dram.toTimingTable (childCount k.dram) c.cmdTrace.reverse cmd' addr 0
      c.clk := by
    rcases hcmd' with rfl | ⟨hcmd, rfl⟩
    · exact hready
    · exact (boundsMet_autoPrecharge hcmd).mpr hready
  have hsame : isAccessing cmd' = isAccessing cmd := by
    rcases hcmd' with rfl | ⟨-, rfl⟩
    · rfl
    · exact isAccessing_autoPrecharge
  refine (isReadyCmd_succeeds h.channel hid hplaced h.clock).bind fun ready hiff => ?_
  have hnow : ready = true := hiff.mpr hready'
  rw [hnow, if_neg (by decide)]
  obtain ⟨v', ch', table', hch', htable', hchannel, hcounts, hmirrors⟩ :=
    hfits'.update hid h.channel h.counts h.rows
      (fun i hi => (h.traced i (List.mem_reverse.mp hi)).1) h.clock
  rw [hch', htable']
  have hsub : c.cmdTrace ⊆ c.cmdTrace ++ [(⟨cmd', addr, c.clk⟩ : Issued Command)] :=
    List.subset_append_left ..
  have hreverse : (c.cmdTrace ++ [(⟨cmd', addr, c.clk⟩ : Issued Command)]).reverse =
      ⟨cmd', addr, c.clk⟩ :: c.cmdTrace.reverse := by
    rw [List.reverse_append, List.reverse_singleton, List.singleton_append]
  refine ⟨v', cmd', ch', table', { h with
    channel := hreverse.symm ▸ hchannel
    rows := hmirrors
    counts := hcounts
    traced := ?_
    ordered := ?_
    respects := hreverse.symm ▸ ⟨hready', h.respects⟩
    pending := fun req hreq => (h.pending req hreq).mono (List.Subset.refl _) hsub
    served := fun s hs => (h.served s hs).mono (List.Subset.refl _) hsub
    accesses := ?_ }, hcmd'.imp_right And.right, rfl⟩
  · intro i hi
    rcases List.mem_append.mp hi with hi | hi
    · exact h.traced i hi
    · obtain rfl := List.mem_singleton.mp hi
      exact ⟨h.clock, le_rfl⟩
  · rw [List.pairwise_append]
    refine ⟨h.ordered, List.pairwise_singleton .., ?_⟩
    intro i hi j hj
    obtain rfl := List.mem_singleton.mp hj
    exact hfresh i hi
  · have hold := h.accesses
    rw [List.countP_append, List.countP_singleton]
    dsimp only
    rw [hsame, hold]
    rfl

end Issuing

/-! ## What the request had -/

section Needs

variable {k : ControllerKnobs} {c : Controller} {v : Banks}

/-- An access needs itself, an activation, a precharge or the end of a power state. -/
theorem accessNeeds_cases (v : Banks) (cmd : Command) (r b : ℕ) (row : ℤ) :
    v.accessNeeds cmd r b row = cmd ∨ v.accessNeeds cmd r b row = .act ∨
      v.accessNeeds cmd r b row = .pre ∨ v.accessNeeds cmd r b row = .pdx ∨
      v.accessNeeds cmd r b row = .srx := by
  unfold Banks.accessNeeds
  cases v.power r with
  | up =>
    cases hrow : v.row r b with
    | none => exact .inr (.inl rfl)
    | some opened =>
      by_cases hopened : opened = row
      · exact .inl (if_pos hopened)
      · exact .inr (.inr (.inl (if_neg hopened)))
  | actDown | preDown => exact .inr (.inr (.inr (.inl rfl)))
  | selfRefresh => exact .inr (.inr (.inr (.inr rfl)))

/-- What is known of a command that a request needs. -/
structure NeededBy (k : ControllerKnobs) (v : Banks) (c : Controller) (req : Request)
    (cmd : Command) : Prop where
  fits : CmdFits k v cmd req.addrVec
  access : isAccessing cmd = true →
    (cmd = .rd ∨ cmd = .wr) ∧ c.isRowHit k req = .ok true
  own : isAccessing cmd = true ↔ IsAccess req ∧ cmd = translate req.type
  opening : isOpening cmd = true → IsAccess req

/-- The next command of a request fits, and is an access only to a row that is open. -/
theorem neededBy_of_decode {past : List (Issued Command)} {req : Request} {cmd : Command}
    (hchannel : ChannelSound k past v c.channel.root) (hfits : FitsChannel k req)
    (hneeds : c.channel.root.decode k.dram (translate req.type) req.addrVec = some cmd) :
    NeededBy k v c req cmd := by
  have hfitsReq := hfits
  cases hfits with
  | @access type_eq id_eq r b haddr =>
    have hown := translate_access type_eq
    have hdecode := hchannel.shows.decode_access (s := k.speed) hown haddr
    obtain rfl : v.accessNeeds (translate req.type) r b (req.addrVec 3) = cmd :=
      Option.some_inj.mp (hdecode.symm.trans hneeds)
    have hcmdFits := fits_accessNeeds v k.banks hown r b (req.addrVec 3)
    have hownAccess : isAccessing (translate req.type) = true := by
      rcases hown with h | h <;> rw [h] <;> rfl
    have hcases := accessNeeds_cases v (translate req.type) r b (req.addrVec 3)
    generalize v.accessNeeds (translate req.type) r b (req.addrVec 3) = cmd at hcmdFits hcases
    have hiff : isAccessing cmd = true ↔ cmd = translate req.type := by
      rcases hcases with rfl | rfl | rfl | rfl | rfl
      · simp [hownAccess]
      all_goals rcases hown with h | h <;> rw [h] <;> simp [isAccessing]
    refine ⟨?_, ?_, ?_, fun _ => type_eq⟩
    · by_cases hbank : ForBank cmd
      · exact .bank hbank haddr hcmdFits
      · exact .rank hbank haddr.inRank hcmdFits
    · intro haccess
      obtain rfl := hiff.mp haccess
      obtain ⟨hit, hhit, hrow⟩ := isRowHit_eq hchannel hfitsReq
      refine ⟨hown, ?_⟩
      rw [hhit, hrow r b haddr type_eq, (hcmdFits.access haccess).2]
      simp
    · rw [hiff]
      exact ⟨fun h => ⟨type_eq, h⟩, fun h => h.2⟩
  | @rank type_eq id_eq r haddr no_bank =>
    have hown : translate req.type = .ref ∨ translate req.type = .pde ∨
        translate req.type = .sre := by
      rcases type_eq with h | h | h <;> rw [h] <;> simp [Ddr3.translate]
    have hdecode := hchannel.shows.decode_rank (s := k.speed) hown haddr
    obtain rfl : v.rankNeeds k.banks (translate req.type) r = cmd :=
      Option.some_inj.mp (hdecode.symm.trans hneeds)
    have hnot : ¬IsAccess req := by
      rintro (h | h) <;> rw [h] at type_eq <;> simp at type_eq
    have hbank := not_forBank_rankNeeds v k.banks hown r false
    have hplain : isAccessing (v.rankNeeds k.banks (translate req.type) r) = false ∧
        isOpening (v.rankNeeds k.banks (translate req.type) r) = false := by
      rcases rankNeeds_cases v k.banks hown r with h | h | h | h
      · rw [h]
        rcases hown with h | h | h <;> rw [h] <;> exact ⟨rfl, rfl⟩
      all_goals
        rw [h]
        exact ⟨rfl, rfl⟩
    refine ⟨.rank hbank haddr (fits_rankNeeds v k.banks hown r 0 0), ?_, ?_, ?_⟩
    · intro haccess
      rw [hplain.1] at haccess
      cases haccess
    · rw [hplain.1]
      exact ⟨fun h => absurd h Bool.false_ne_true, fun h => absurd h.1 hnot⟩
    · intro hopening
      rw [hplain.2] at hopening
      cases hopening

end Needs

/-! ## Finishing -/

section Finishing

variable {k : ControllerKnobs} {c : Controller} {log : List Arrival} {v : Banks} {owed : ℕ}
  {choice : Controller.Choice}

/-- The request of a choice whose command was just issued. -/
structure JustIssued (k : ControllerKnobs) (c : Controller) (choice : Controller.Choice) : Prop where
  place : (c.queue choice.name)[choice.place]? = some (started choice).req
  line : ∃ i ∈ c.cmdTrace, i.clk = c.clk ∧ i.addr = choice.req.addrVec ∧
    (i.cmd = choice.cmd ∨ i.cmd = autoPrecharge choice.cmd)
  own : isAccessing choice.cmd = true ↔
    IsAccess choice.req ∧ choice.cmd = translate choice.req.type
  opening : isOpening choice.cmd = true → IsAccess choice.req

/-- A request for which a row was opened goes to the queue of such requests. -/
theorem Sound.promote (h : Sound k log v owed c) (hissued : JustIssued k c choice)
    (hopening : isOpening choice.cmd = true) :
    Sound k log v owed
      ((c.setQueue .actq (c.actq ++ [(started choice).req])).setQueue choice.name
        (((c.setQueue .actq (c.actq ++ [(started choice).req])).queue choice.name).eraseIdx
          choice.place)) := by
  have haccess := hissued.opening hopening
  have hbelongs := h.queues _ _ (List.mem_of_getElem? hissued.place)
  have hname : choice.name ≠ .otherq := hbelongs.isAccess_iff.mp haccess
  have hact : Belongs k log c.clk .actq (started choice).req :=
    ⟨hbelongs.fits, hbelongs.arrived, hbelongs.logged, by simp, by simp, fun _ => haccess, by simp⟩
  have hqueues : ∀ name, ∀ req ∈
      (c.setQueue .actq (c.actq ++ [(started choice).req])).queue name,
      Belongs k log c.clk name req := by
    apply queues_setQueue h.queues
    intro req hreq
    rcases List.mem_append.mp hreq with hreq | hreq
    · exact h.queues .actq req hreq
    · obtain rfl := List.mem_singleton.mp hreq
      exact hact
  have hpushed : (waiting (c.setQueue .actq (c.actq ++ [(started choice).req]))).Perm
      ((started choice).req :: waiting c) :=
    waiting_setQueue (by simp)
      (List.perm_append_singleton (started choice).req c.actq)
  have hplace : ((c.setQueue .actq (c.actq ++ [(started choice).req])).queue choice.name)[
      choice.place]? = some (started choice).req := by
    rw [queue_setQueue]
    split
    · rename_i heq
      have hold := hissued.place
      rw [heq] at hold
      obtain ⟨hlt, -⟩ := List.getElem?_eq_some_iff.mp hold
      exact (List.getElem?_append_left hlt).trans hold
    · exact hissued.place
  have hpopped := waiting_setQueue (c := c.setQueue .actq (c.actq ++ [(started choice).req])) hname
    (perm_cons_eraseIdx hplace)
  rw [setQueue_queue] at hpopped
  have hsame := (hpopped.symm.trans hpushed).cons_inv
  refine h.requeue ?_ (List.Subset.refl _) h.writes ?_ ?_ ?_
  · obtain ⟨r, w, a, o, hone⟩ := setQueue_same c .actq (c.actq ++ [(started choice).req])
    obtain ⟨r', w', a', o', htwo⟩ := setQueue_same (c.setQueue .actq
      (c.actq ++ [(started choice).req])) choice.name
      (((c.setQueue .actq (c.actq ++ [(started choice).req])).queue choice.name).eraseIdx
        choice.place)
    refine ⟨r', w', a', o', ?_⟩
    rw [htwo, hone]
  · apply queues_setQueue hqueues
    intro req hreq
    exact hqueues _ req (List.mem_of_mem_eraseIdx hreq)
  · exact h.counts.perm (underway_perm hsame.symm)
  · exact h.booked.trans ((hsame.symm.append_right _).map _)

/-- A request that leaves its queue with its answer stays among the requests booked. -/
theorem booked_leave {w w' a a' : List Request} {old new : Request} (hw : w.Perm (old :: w'))
    (ha : a'.Perm (new :: a)) (hid : new.reqid = old.reqid) :
    ((w ++ a).map Request.reqid).Perm ((w' ++ a').map Request.reqid) := by
  have hold := (hw.append_right a).map Request.reqid
  have hnew := ((ha.append_left w').trans List.perm_middle).map Request.reqid
  rw [List.map_cons, hid] at hnew
  exact hold.trans hnew.symm

/-- One more answer that is not prompt is one more access. -/
theorem countP_accessed {a a' : List Request} {new : Request} (ha : a'.Perm (new :: a))
    (hnew : ¬Prompt new) :
    (a'.countP fun req => ¬Prompt req) = (a.countP fun req => ¬Prompt req) + 1 := by
  rw [ha.countP_eq, List.countP_cons_of_pos (by simpa using hnew)]

/-- A read whose command was issued waits for its data. -/
theorem Sound.awaitData (h : Sound k log v 1 c) (hlatency : 2 ≤ k.readLatency)
    (hissued : JustIssued k c choice) (hcmd : choice.cmd = translate choice.req.type)
    (hread : choice.req.type = .read) :
    Sound k log v 0
      ((Controller.setQueue
        { c with pending := c.pending ++
            [{ (started choice).req with depart := c.clk + k.readLatency }] }
        choice.name ((c.queue choice.name).eraseIdx choice.place))) := by
  have hbelongs := h.queues _ _ (List.mem_of_getElem? hissued.place)
  have harrived : choice.req.arrive ≤ c.clk := hbelongs.arrived
  have hname : choice.name ≠ .otherq := hbelongs.isAccess_iff.mp (.inl hread)
  have hwaiting := waiting_setQueue (c := c) hname (perm_cons_eraseIdx hissued.place)
  rw [setQueue_queue] at hwaiting
  have hqueues := queues_setQueue h.queues choice.name
    ((c.queue choice.name).eraseIdx choice.place)
    fun req hreq => h.queues _ req (List.mem_of_mem_eraseIdx hreq)
  generalize hdata : ({ (started choice).req with depart := c.clk + k.readLatency } : Request) =
    data
  have hanswered := answered_cons c data
  have hlate : 1 < data.depart - data.arrive := by
    rw [← hdata]
    show 1 < c.clk + k.readLatency - choice.req.arrive
    omega
  have hvec : data.addrVec = (started choice).req.addrVec := by rw [← hdata]
  have hid : data.reqid = (started choice).req.reqid := by rw [← hdata]
  obtain ⟨r, w, a, o, hsame⟩ := setQueue_same c choice.name
    ((c.queue choice.name).eraseIdx choice.place)
  have hpending : Controller.setQueue { c with pending := c.pending ++ [data] } choice.name
      ((c.queue choice.name).eraseIdx choice.place) =
      { c.setQueue choice.name ((c.queue choice.name).eraseIdx choice.place) with
        pending := c.pending ++ [data] } := by
    cases choice.name <;> rfl
  rw [hpending]
  generalize hnext : c.setQueue choice.name ((c.queue choice.name).eraseIdx choice.place) = c'
  rw [hnext] at hsame hwaiting hqueues
  subst hsame
  refine { h with
    counts := ?_
    queues := hqueues
    pending := ?_
    booked := ?_
    accesses := ?_ }
  · refine h.counts.perm ((underway_perm hwaiting).trans ?_)
    rw [underway_cons_started rfl, ← hvec]
    exact (underway_append_pending_perm hlate).symm
  · intro req hreq
    rcases List.mem_append.mp hreq with hreq | hreq
    · exact h.pending req hreq
    · obtain rfl := List.mem_singleton.mp hreq
      obtain ⟨i, hi, hclk, haddr, hline⟩ := hissued.line
      rw [hcmd] at hline
      subst hdata
      refine ⟨hread, ?_, .inr ⟨hbelongs.logged (.inl hread), ⟨i, ⟨hi, hline, haddr, ?_⟩, ?_⟩, hlate⟩⟩
      · cases hbelongs.fits with
        | access type_eq id_eq haddr => exact .access type_eq id_eq haddr
        | rank type_eq id_eq haddr no_bank => exact .rank type_eq id_eq haddr no_bank
      · rw [hclk]
        exact harrived
      · rw [hclk]
  · exact h.booked.trans (booked_leave hwaiting hanswered hid)
  · have hprompt : ¬Prompt data := fun hp => absurd hp.2 (not_le.mpr hlate)
    rw [h.accesses]
    exact (countP_accessed hanswered hprompt).symm

/-- A write is done with its command. -/
theorem Sound.finishWrite (h : Sound k log v 1 c) (hissued : JustIssued k c choice)
    (hcmd : choice.cmd = translate choice.req.type) (hwrite : choice.req.type = .write) :
    Succeeds (c.updateServing choice.req.addrVec (-1)) fun c' =>
      Sound k log v 0
        (Controller.setQueue { c' with served := c'.served ++ [(c'.clk, (started choice).req)] }
          choice.name ((c'.queue choice.name).eraseIdx choice.place)) := by
  have hbelongs := h.queues _ _ (List.mem_of_getElem? hissued.place)
  have haccess : IsAccess choice.req := .inr hwrite
  have hname : choice.name ≠ .otherq := hbelongs.isAccess_iff.mp haccess
  have hwaiting := waiting_setQueue (c := c) hname (perm_cons_eraseIdx hissued.place)
  rw [setQueue_queue] at hwaiting
  have hqueues := queues_setQueue h.queues choice.name
    ((c.queue choice.name).eraseIdx choice.place)
    fun req hreq => h.queues _ req (List.mem_of_mem_eraseIdx hreq)
  have hcounts := h.counts.perm (underway_perm hwaiting)
  rw [underway_cons_started rfl] at hcounts
  have hremove := hcounts.remove c.clk (hbelongs.fits.wellPlaced haccess)
    hbelongs.fits.below
  refine (updateServing_succeeds h.channel hremove).mono ?_ fun _ he => he
  rintro c' ⟨root, rfl, hchannel, hroot⟩
  obtain ⟨r, w, a, o, hsame⟩ := setQueue_same c choice.name
    ((c.queue choice.name).eraseIdx choice.place)
  have hserved : Controller.setQueue
      { c with
        channel := { c.channel with root := root }
        served := c.served ++ [(c.clk, (started choice).req)] }
      choice.name ((c.queue choice.name).eraseIdx choice.place) =
      { c.setQueue choice.name ((c.queue choice.name).eraseIdx choice.place) with
        channel := { c.channel with root := root }
        served := c.served ++ [(c.clk, (started choice).req)] } := by
    cases choice.name <;> rfl
  have hqueue : ({ c with channel := { c.channel with root := root } } : Controller).queue
      choice.name = c.queue choice.name := by
    cases choice.name <;> rfl
  rw [hqueue, hserved]
  generalize hnext : c.setQueue choice.name ((c.queue choice.name).eraseIdx choice.place) = c'
  rw [hnext] at hsame hwaiting hqueues hroot
  subst hsame
  have hanswered : (c.pending ++
      (c.served ++ [(c.clk, (started choice).req)]).map Prod.snd).Perm
        ((started choice).req :: answered c) := by
    rw [List.map_append, ← List.append_assoc]
    exact List.perm_append_singleton _ _
  refine { h with
    channel := hchannel
    counts := hroot
    queues := hqueues
    served := ?_
    booked := ?_
    accesses := ?_ }
  · intro s hs
    rcases List.mem_append.mp hs with hs | hs
    · exact h.served s hs
    · obtain rfl := List.mem_singleton.mp hs
      obtain ⟨i, hi, hclk, haddr, hline⟩ := hissued.line
      rw [hcmd] at hline
      refine ⟨le_rfl, haccess, ?_, fun _ => ⟨i, ⟨hi, hline, haddr, ?_⟩, hclk⟩⟩
      · intro hread
        have hread' : choice.req.type = .read := hread
        rw [hwrite] at hread'
        cases hread'
      · rw [hclk]
        exact hbelongs.arrived
  · exact h.booked.trans (booked_leave hwaiting hanswered rfl)
  · have hprompt : ¬Prompt (started choice).req := fun hp => by
      have hread : choice.req.type = .read := hp.1
      rw [hwrite] at hread
      cases hread
    rw [h.accesses]
    exact (countP_accessed hanswered hprompt).symm

/-- A refresh, or a change of the power mode, is done with its command. -/
theorem Sound.finishOther (h : Sound k log v owed c) (hissued : JustIssued k c choice)
    (hother : ¬IsAccess choice.req) :
    Sound k log v owed
      (c.setQueue choice.name ((c.queue choice.name).eraseIdx choice.place)) := by
  have hbelongs := h.queues _ _ (List.mem_of_getElem? hissued.place)
  have hname : choice.name = .otherq := by
    by_contra hne
    exact hother (hbelongs.isAccess_iff.mpr hne)
  have hqueues := queues_setQueue h.queues choice.name
    ((c.queue choice.name).eraseIdx choice.place)
    fun req hreq => h.queues _ req (List.mem_of_mem_eraseIdx hreq)
  apply h.requeue (setQueue_same c _ _) (List.Subset.refl _) h.writes hqueues
  · rw [hname]
    exact h.counts
  · rw [hname]
    exact h.booked

/-- A completed read is pending until its data is there. -/
theorem completeRequest_read (req : Request) (h : req.type = .read) :
    c.completeRequest k req = .ok { c with
      pending := c.pending ++ [{ req with depart := c.clk + k.readLatency }] } := by
  unfold Controller.completeRequest
  rw [h]

/-- A completed write is served at once. -/
theorem completeRequest_write (req : Request) (h : req.type = .write) :
    c.completeRequest k req = (do
      let c ← c.updateServing req.addrVec (-1)
      .ok { c with served := c.served ++ [(c.clk, req)] }) := by
  unfold Controller.completeRequest
  rw [h]

/-- A completed request of another kind needs no answer. -/
theorem completeRequest_other (req : Request) (h : ¬IsAccess req) :
    c.completeRequest k req = .ok c := by
  unfold Controller.completeRequest
  unfold IsAccess at h
  cases htype : req.type <;> simp_all

/-- Whatever command was issued for a request, the request is where it belongs afterwards. -/
theorem Sound.finishRequest (h : Sound k log v (if isAccessing choice.cmd then 1 else 0) c)
    (hlatency : 2 ≤ k.readLatency) (hissued : JustIssued k c choice) :
    Succeeds (c.finishRequest k choice) fun c' => Sound k log v 0 c' := by
  unfold Controller.finishRequest
  dsimp only
  split
  · rename_i hother
    have hplain : isAccessing choice.cmd = false := by
      by_contra haccess
      exact hother (hissued.own.mp (by simpa using haccess)).2
    rw [hplain, if_neg Bool.false_ne_true] at h
    split
    · rename_i hopening
      exact h.promote hissued hopening
    · exact h
  · rename_i hown
    have hcmd : choice.cmd = translate choice.req.type := not_not.mp hown
    have hcomplete : Succeeds (c.completeRequest k (started choice).req) fun c' =>
        Sound k log v 0
          (c'.setQueue choice.name ((c'.queue choice.name).eraseIdx choice.place)) := by
      by_cases haccess : IsAccess choice.req
      · rw [if_pos (hissued.own.mpr ⟨haccess, hcmd⟩)] at h
        rcases haccess with hread | hwrite
        · rw [completeRequest_read (started choice).req hread]
          exact h.awaitData hlatency hissued hcmd hread
        · rw [completeRequest_write (started choice).req hwrite]
          exact (h.finishWrite hissued hcmd hwrite).bind fun c' hc' => hc'
      · have hplain : isAccessing choice.cmd = false := by
          by_contra hno
          exact haccess (hissued.own.mp (by simpa using hno)).1
        rw [hplain, if_neg Bool.false_ne_true] at h
        rw [completeRequest_other (started choice).req haccess]
        exact h.finishOther hissued haccess
    exact hcomplete.bind fun c' hc' => hc'

end Finishing

end MacSim.Analysis.Ramulator
