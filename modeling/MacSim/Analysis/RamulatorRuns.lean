import MacSim.Analysis.RamulatorIssue

/-!
# Runs of a DDR3 controller

A run takes requests and ticks in any order.  What a controller keeps, it keeps in every run: no
assertion of the controller, the channel or the table of rows fails, every read and write that was
taken is in one place, and the commands that were issued obey the timing of the standard.  Only the
refresh timer can stop a run, when the queue of its refreshes has no room for all ranks.
-/

set_option autoImplicit false

namespace MacSim.Analysis.Ramulator

open MacSim.Model.Ramulator MacSim.Model.Ramulator.Ddr3 MacSim.Computation

/-! ## Speculative precharges -/

section Victims

variable {k : ControllerKnobs} {c : Controller} {log : List Arrival} {v : Banks} {owed : ℕ}

/-- The address made from a key lies in the bank of the key. -/
theorem inBank_bankAddr {ranks banks : ℕ} {r b : ℕ} (hr : r < ranks) (hb : b < banks) (id : ℤ) :
    InBank ranks banks (Controller.bankAddr (bankKey id r b)) r b :=
  ⟨rfl, rfl, hr, hb⟩

/-- A row of the table that may be closed now. -/
def Victim (k : ControllerKnobs) (c : Controller) (key : List ℤ) : Prop :=
  (∃ entry, (key, entry) ∈ c.rowtable) ∧
    BoundsMet k.dram.toTimingTable (childCount k.dram) c.cmdTrace.reverse .pre
      (Controller.bankAddr key) 0 c.clk

/-- The search for a victim succeeds, and a victim it finds may be closed. -/
theorem Sound.firstVictim (h : Sound k log v owed c) (due : RowEntry → Bool) (table : RowTable)
    (hsub : ∀ kv ∈ table, kv ∈ c.rowtable) :
    Succeeds (c.firstVictim k due table) fun found => ∀ key, found = some key →
      Victim k c key := by
  induction table with
  | nil =>
    rintro key ⟨⟩
  | cons kv rest ih =>
    obtain ⟨key, entry⟩ := kv
    have hmem := hsub (key, entry) (List.mem_cons_self ..)
    have hrest := ih fun kv hkv => hsub kv (List.mem_cons_of_mem _ hkv)
    obtain ⟨r, hr, b, hb, hkey, -⟩ := h.rows.opened _ hmem
    have hbank := inBank_bankAddr hr hb k.id
    rw [← show key = bankKey k.id r b from hkey] at hbank
    have hid : Controller.bankAddr key 0 = k.id := by
      rw [show key = bankKey k.id r b from hkey]
      rfl
    unfold Controller.firstVictim
    split
    · refine (isReadyCmd_succeeds h.channel hid hbank.inTree h.clock).bind fun ready hready => ?_
      cases ready with
      | false => exact hrest
      | true =>
        intro found hfound
        cases hfound
        exact ⟨⟨entry, hmem⟩, hready.mp rfl⟩
    · exact hrest

/-- Every row policy closes open rows only, when their banks may be closed. -/
theorem Sound.getVictim (h : Sound k log v owed c) :
    Succeeds (c.getVictim k) fun found => ∀ key, found = some key → Victim k c key := by
  unfold Controller.getVictim
  cases k.rowpolicy with
  | closed | closedAP | timeout => exact h.firstVictim _ c.rowtable fun kv hkv => hkv
  | opened =>
    rintro key ⟨⟩

/-- A row is closed ahead of need. -/
theorem Sound.speculate (h : Sound k log v 0 c) (hfresh : Fresh c) :
    Succeeds (c.speculate k) fun c' => ∃ v', Sound k log v' 0 c' := by
  unfold Controller.speculate
  refine h.getVictim.bind fun victim hvictim => ?_
  cases victim with
  | none => exact ⟨v, h⟩
  | some key =>
    obtain ⟨⟨entry, hmem⟩, hready⟩ := hvictim key rfl
    obtain ⟨r, hr, b, hb, hkey, hrow⟩ := h.rows.opened _ hmem
    obtain rfl : key = bankKey k.id r b := hkey
    have hbank := inBank_bankAddr hr hb k.id
    have hfits : Fits v k.banks .pre r b (Controller.bankAddr (bankKey k.id r b) 3) := by
      constructor <;> simp [isAccessing, hrow]
    refine (h.issueCmd hfresh (.bank (by decide) hbank hfits) rfl hbank.inTree hready
      (fun haccess => absurd haccess (by decide))).mono ?_ fun _ he => he
    rintro c' ⟨v', cmd', channel, rowtable, hsound, -, -⟩
    exact ⟨v', hsound⟩

end Victims

/-! ## Serving -/

section Serving

variable {k : ControllerKnobs} {c : Controller} {log : List Arrival} {v : Banks}

/-- A cycle issues the command that a request needs, or closes a row, or does nothing. -/
theorem Sound.serve (h : Sound k log v 0 c) (hfresh : Fresh c) (hlatency : 2 ≤ k.readLatency) :
    Succeeds (c.serve k) fun c' => ∃ v', Sound k log v' 0 c' := by
  unfold Controller.serve
  refine h.choose.bind fun choice hchoice => ?_
  cases choice with
  | none => exact h.speculate hfresh
  | some choice =>
    refine (h.startRequest hfresh (hchoice choice rfl)).bind ?_
    rintro c₁ ⟨hsound, hfresh₁, hchosen⟩
    have hplace := List.mem_of_getElem? hchosen.place
    have hbelongs : Belongs k log c₁.clk choice.name (started choice).req :=
      hsound.queues choice.name _ hplace
    have hneeded : NeededBy k v c₁ (started choice).req choice.cmd :=
      neededBy_of_decode hsound.channel hbelongs.fits hchosen.needs
    refine (hsound.issueCmd hfresh₁ hneeded.fits hbelongs.fits.id_eq hbelongs.fits.inTree
      hchosen.ready ?_).bind ?_
    · intro haccess
      obtain ⟨hcmd, hhit⟩ := hneeded.access haccess
      refine ⟨hcmd, choice.name, ?_, _, hplace, hhit, rfl⟩
      have hname : choice.name ≠ .otherq := hbelongs.isAccess_iff.mp (hneeded.own.mp haccess).1
      rcases hchosen.served with hact | hother | hmode
      · exact .inl hact
      · exact absurd hother hname
      · exact .inr hmode
    · rintro c₂ ⟨v', cmd', channel, rowtable, hsound₂, hcmd', rfl⟩
      refine (hsound₂.finishRequest hlatency ⟨?_, ?_, hneeded.own, hneeded.opening⟩).mono
        (fun c' hc' => ⟨v', hc'⟩) fun _ he => he
      · have hqueue := hchosen.place
        cases hname : (started choice).name <;> rw [hname] at hqueue <;>
          rw [show choice.name = _ from hname] <;> exact hqueue
      · exact ⟨_, List.mem_append_right _ (List.mem_singleton_self _), rfl, rfl, hcmd'⟩

/-- A tick keeps what a controller keeps, unless a refresh is due that there is no room for. -/
theorem Sound.tick (h : Sound k log v 0 c) (hlatency : 2 ≤ k.readLatency) :
    Meets (c.tick k) (fun c' => ∃ v', Sound k log v' 0 c')
      (fun e => e = .refreshRefused ∧ k.speed.nREFI ≤ c.refreshClk + 1 - c.refreshed ∧
        k.queueMax < c.otherq.length + k.ranks) := by
  obtain ⟨hnext, hfresh⟩ := h.nextClk
  unfold Controller.tick
  refine ((hnext.serveCompleted hfresh).mono (fun c' hc' => hc') fun e he => he.elim).bind ?_
  rintro c₁ ⟨hsound₁, hfresh₁, hotherq, hrefreshClk, hrefreshed⟩
  refine ((hsound₁.tickRef hfresh₁).mono (fun c' hc' => hc') ?_).bind ?_
  · rintro e ⟨rfl, hdue, hroom⟩
    rw [hrefreshClk, hrefreshed] at hdue
    rw [hotherq] at hroom
    exact ⟨rfl, hdue, hroom⟩
  · rintro c₂ ⟨hsound₂, hfresh₂⟩
    refine ((hsound₂.scheduleWrites hfresh₂).mono (fun c' hc' => hc') fun e he => he.elim).bind ?_
    rintro c₃ ⟨hsound₃, hfresh₃⟩
    exact (hsound₃.serve hfresh₃ hlatency).mono (fun c' hc' => hc') fun e he => he.elim

end Serving

/-! ## Room in the queues -/

/-- The queues that take new requests are not longer than they may be. -/
def Roomy (k : ControllerKnobs) (c : Controller) : Prop :=
  ∀ name, name ≠ .actq → (c.queue name).length ≤ k.queueMax

/-- No queue that takes new requests is longer than it was. -/
def NoLonger (c c' : Controller) : Prop :=
  ∀ name, name ≠ .actq → (c'.queue name).length ≤ (c.queue name).length

/-- A result of the program satisfies `Q`, if there is one. -/
abbrev Leaves {α : Type} (x : Except Fault α) (Q : α → Prop) : Prop :=
  Meets x Q fun _ => True

section Lengths

variable {k : ControllerKnobs} {c c' c'' : Controller}

/-- The queues are no longer than they are. -/
theorem NoLonger.refl (c : Controller) : NoLonger c c :=
  fun _ _ => le_rfl

/-- Growing no longer is transitive. -/
theorem NoLonger.trans (h : NoLonger c c') (h' : NoLonger c' c'') : NoLonger c c'' :=
  fun name hname => (h' name hname).trans (h name hname)

/-- The same queues are no longer. -/
theorem NoLonger.of_queue (h : c'.queue = c.queue) : NoLonger c c' :=
  fun name _ => (congrArg List.length (congrFun h name)).le

/-- Queues that are no longer have the room they had. -/
theorem NoLonger.roomy (h : NoLonger c c') (hroom : Roomy k c) : Roomy k c' :=
  fun name hname => (h name hname).trans (hroom name hname)

/-- A queue that is set to a shorter one makes none longer. -/
theorem noLonger_setQueue {name : Controller.QueueName} {q : List Request}
    (hq : name ≠ .actq → q.length ≤ (c.queue name).length) : NoLonger c (c.setQueue name q) := by
  intro other hother
  rw [queue_setQueue]
  split
  · rename_i hsame
    exact hsame ▸ hq (hsame ▸ hother)
  · exact le_rfl

/-- Every result leaves a state. -/
theorem leaves_true {α : Type} (x : Except Fault α) : Leaves x fun _ => True := by
  cases x <;> exact trivial

/-- The count of requests in service lengthens no queue. -/
theorem updateServing_noLonger (addr : ℕ → ℤ) (delta : ℤ) :
    Leaves (c.updateServing addr delta) (NoLonger c) :=
  (leaves_true _).bind fun _ _ => .of_queue (by funext name; cases name <;> rfl)

/-- A command that is issued lengthens no queue. -/
theorem issueCmd_noLonger (cmd : Command) (addr : ℕ → ℤ) :
    Leaves (c.issueCmd k cmd addr) (NoLonger c) := by
  refine (leaves_true _).bind fun cmd' _ => (leaves_true _).bind fun ready _ => ?_
  split
  · exact trivial
  · refine (leaves_true _).bind fun channel _ => (leaves_true _).bind fun rowtable _ => ?_
    exact .of_queue (by funext name; cases name <;> rfl)

/-- The start of a request lengthens no queue. -/
theorem startRequest_noLonger (choice : Controller.Choice) :
    Leaves (c.startRequest k choice) (NoLonger c) := by
  unfold Controller.startRequest
  split
  · have hmark : NoLonger c (c.setQueue choice.name ((c.queue choice.name).set choice.place
        { choice.req with isFirstCommand := false })) :=
      noLonger_setQueue fun _ => by rw [List.length_set]
    dsimp only
    split
    · refine (updateServing_noLonger _ _).bind fun c' hc' => ?_
      refine (leaves_true _).bind fun hit _ => ?_
      split
      · exact hmark.trans hc'
      · exact (leaves_true _).bind fun _ _ => hmark.trans hc'
    · exact hmark
  · exact .refl c

/-- The end of a request lengthens no queue. -/
theorem finishRequest_noLonger (choice : Controller.Choice) :
    Leaves (c.finishRequest k choice) (NoLonger c) := by
  have hremove (c' : Controller) : NoLonger c' (c'.setQueue choice.name
      ((c'.queue choice.name).eraseIdx choice.place)) :=
    noLonger_setQueue fun _ => List.length_eraseIdx_le ..
  have hcomplete (req : Request) : Leaves (c.completeRequest k req) (NoLonger c) := by
    unfold Controller.completeRequest
    split
    · exact .of_queue (by funext name; cases name <;> rfl)
    · refine (updateServing_noLonger _ _).bind fun c' hc' => ?_
      exact hc'.trans (.of_queue (by funext name; cases name <;> rfl))
    · exact .refl c
  unfold Controller.finishRequest
  dsimp only
  split
  · split
    · have hpromote (q : List Request) : NoLonger c (c.setQueue .actq q) :=
        noLonger_setQueue fun hne => absurd rfl hne
      exact (hpromote _).trans (hremove _)
    · exact .refl c
  · exact (hcomplete _).bind fun c' hc' => hc'.trans (hremove c')

/-- Serving never lengthens a queue that takes new requests. -/
theorem serve_noLonger : Leaves (c.serve k) (NoLonger c) := by
  refine (leaves_true _).bind fun choice _ => ?_
  cases choice with
  | none =>
    refine (leaves_true _).bind fun victim _ => ?_
    cases victim with
    | none => exact .refl c
    | some key => exact issueCmd_noLonger .pre _
  | some choice =>
    refine (startRequest_noLonger choice).bind fun c₁ h₁ => ?_
    refine (issueCmd_noLonger choice.cmd _).bind fun c₂ h₂ => ?_
    exact (finishRequest_noLonger choice).mono (fun c₃ h₃ => (h₁.trans h₂).trans h₃) fun _ _ =>
      trivial

/-- A request is refused by a full queue. -/
theorem Roomy.enqueue (h : Roomy k c) (req : Request) : Roomy k (c.enqueue k req).1 := by
  unfold Controller.enqueue
  dsimp only
  split
  · exact h
  · rename_i hroom
    split
    · exact (NoLonger.of_queue (by funext name; cases name <;> rfl)).roomy h
    · intro name hname
      rw [queue_setQueue]
      split
      · rename_i hsame
        have hlength := h name hname
        rw [← hsame] at hroom ⊢
        rw [List.length_append, List.length_singleton]
        omega
      · exact h name hname

/-- The refreshes keep their room in the last queue. -/
theorem Roomy.injectRefresh (h : Roomy k c) (ranks : List ℕ) :
    Leaves (Controller.injectRefresh k ranks c) (Roomy k) := by
  induction ranks generalizing c with
  | nil => exact h
  | cons rank ranks ih =>
    have hnext := h.enqueue (Controller.refreshRequest k rank)
    unfold Controller.injectRefresh
    generalize c.enqueue k (Controller.refreshRequest k rank) = taken at hnext ⊢
    obtain ⟨c', ok⟩ := taken
    cases ok with
    | false => exact trivial
    | true => exact ih hnext

/-- The refresh controller keeps the room in every queue. -/
theorem Roomy.tickRef (h : Roomy k c) : Leaves (c.tickRef k) (Roomy k) := by
  have hclock : Roomy k { c with refreshClk := c.refreshClk + 1 } :=
    (NoLonger.of_queue (by funext name; cases name <;> rfl)).roomy h
  unfold Controller.tickRef
  dsimp only
  split
  · refine (hclock.injectRefresh _).bind fun c' hc' => ?_
    exact (NoLonger.of_queue (by funext name; cases name <;> rfl)).roomy hc'
  · exact hclock

/-- The choice between reads and writes lengthens no queue. -/
theorem scheduleWrites_noLonger : Leaves (c.scheduleWrites k) (NoLonger c) := by
  have hmode (mode : Bool) : NoLonger c { c with writeMode := mode } :=
    .of_queue (by funext name; cases name <;> rfl)
  unfold Controller.scheduleWrites
  split
  · exact hmode false
  · split
    · exact hmode true
    · split
      · exact hmode false
      · refine (leaves_true _).bind fun wreq _ => (leaves_true _).bind fun rreq _ => ?_
        split
        · exact hmode _
        · exact trivial

/-- The completed reads lengthen no queue. -/
theorem serveCompleted_noLonger : Leaves c.serveCompleted (NoLonger c) := by
  unfold Controller.serveCompleted
  split
  · exact .refl c
  · split
    · have hretire (req : Request) : Leaves (c.retireRead req) (NoLonger c) := by
        unfold Controller.retireRead
        split
        · exact updateServing_noLonger _ _
        · exact .refl c
      refine (hretire _).bind fun c' hc' => ?_
      exact hc'.trans (.of_queue (by funext name; cases name <;> rfl))
    · exact .refl c

/-- A tick keeps the room in every queue. -/
theorem Roomy.tick (h : Roomy k c) : Leaves (c.tick k) (Roomy k) := by
  have hclock : Roomy k { c with clk := c.clk + 1 } :=
    (NoLonger.of_queue (by funext name; cases name <;> rfl)).roomy h
  refine serveCompleted_noLonger.bind fun c₁ h₁ => ?_
  refine (h₁.roomy hclock).tickRef.bind fun c₂ h₂ => ?_
  refine scheduleWrites_noLonger.bind fun c₃ h₃ => ?_
  exact serve_noLonger.mono (fun c₄ h₄ => (h₃.trans h₄).roomy h₂) fun _ _ => trivial

/-- Refreshes are refused when there is no room for them all. -/
theorem injectRefresh_refused {ranks : List ℕ} (hroom : c.otherq.length ≤ k.queueMax)
    (hranks : k.queueMax < c.otherq.length + ranks.length) :
    Controller.injectRefresh k ranks c = .error .refreshRefused := by
  induction ranks generalizing c with
  | nil =>
    rw [List.length_nil] at hranks
    omega
  | cons rank ranks ih =>
    unfold Controller.injectRefresh
    rw [enqueue_refreshRequest]
    by_cases hfull : c.otherq.length = k.queueMax
    · rw [if_pos hfull]
    · rw [if_neg hfull]
      rw [List.length_cons] at hranks
      apply ih
      · rw [List.length_append, List.length_singleton]
        omega
      · rw [List.length_append, List.length_singleton]
        omega

/-- The refresh timer fails when a refresh is due that there is no room for. -/
theorem tickRef_refused (hroom : c.otherq.length ≤ k.queueMax)
    (hdue : k.speed.nREFI ≤ c.refreshClk + 1 - c.refreshed)
    (hranks : k.queueMax < c.otherq.length + k.ranks) :
    c.tickRef k = .error .refreshRefused := by
  have hinject : Controller.injectRefresh k (List.range k.ranks)
      { c with refreshClk := c.refreshClk + 1 } = .error .refreshRefused := by
    apply injectRefresh_refused
    · exact hroom
    · rw [List.length_range]
      exact hranks
  unfold Controller.tickRef
  dsimp only
  rw [if_pos hdue, hinject]
  rfl

end Lengths

/-! ## Runs -/

/-- The runs of a controller, with the reads and writes that it has taken and what each of them
found waiting. -/
inductive RunOf (k : ControllerKnobs) : List Arrival → Controller → Prop
  | new : RunOf k [] (Controller.new k)
  | enqueue {log : List Arrival} {c : Controller} (before : RunOf k log c) (req : Request)
      (fits : FitsChannel k req) (first : req.isFirstCommand = true) :
      RunOf k (taken log c req (c.enqueue k req).2) (c.enqueue k req).1
  | tick {log : List Arrival} {c c' : Controller} (before : RunOf k log c)
      (step : c.tick k = .ok c') : RunOf k log c'

section Runs

variable {k : ControllerKnobs} {log : List Arrival} {c : Controller}

/-- Every run of the controller is sound. -/
theorem RunOf.sound (h : RunOf k log c) (hlatency : 2 ≤ k.readLatency) :
    ∃ v, Sound k log v 0 c := by
  induction h with
  | new => exact ⟨.allClosed, sound_new k⟩
  | enqueue before req fits first ih =>
    obtain ⟨v, hsound⟩ := ih
    exact ⟨v, hsound.enqueue fits first⟩
  | tick before step ih =>
    obtain ⟨v, hsound⟩ := ih
    exact (hsound.tick hlatency).result step

/-- In every run each queue keeps to its size. -/
theorem RunOf.roomy (h : RunOf k log c) : Roomy k c := by
  induction h with
  | new =>
    intro name _
    cases name <;> exact Nat.zero_le _
  | enqueue before req fits first ih => exact ih.enqueue req
  | tick before step ih => exact ih.tick.result step

/-- A controller after a number of ticks. -/
def ticks (k : ControllerKnobs) : ℕ → Controller → Except Fault Controller
  | 0, c => .ok c
  | n + 1, c => c.tick k >>= ticks k n

/-- Ticks go on with a run. -/
theorem RunOf.ticks (h : RunOf k log c) (n : ℕ) : Leaves (ticks k n c) (RunOf k log) := by
  induction n generalizing c with
  | zero => exact h
  | succ n ih =>
    unfold Ramulator.ticks
    have hnext : Leaves (c.tick k) (RunOf k log) := by
      cases hstep : c.tick k with
      | error e => exact trivial
      | ok c' => exact h.tick hstep
    exact hnext.bind fun c' hc' => ih hc'

/-- What is seen after a number of ticks is seen at the end of a run. -/
theorem RunOf.exists_ticks {α : Type} (h : RunOf k log c) (n : ℕ) (seen : Controller → α) (a : α)
    (hseen : (Ramulator.ticks k n c).toOption.map seen = some a) :
    ∃ c', RunOf k log c' ∧ seen c' = a := by
  have hrun := h.ticks n
  cases hticks : Ramulator.ticks k n c with
  | error e =>
    rw [hticks] at hseen
    cases hseen
  | ok c' =>
    rw [hticks] at hrun hseen
    exact ⟨c', hrun, Option.some_inj.mp hseen⟩

/-! ## A channel of one rank -/

/-- A channel of one rank. -/
def oneRank : ControllerKnobs where
  speed := speed1600K
  ranks := 1
  banks := 8
  id := 0

/-- A request for a row of its first bank. -/
def rowRequest (type : RequestType) (reqid : ℕ) (row : ℤ) : Request where
  isFirstCommand := true
  addr := 64 * row
  addrVec level := if level = 3 then row else 0
  reqid := reqid
  type := type
  arrive := -1
  depart := -1

/-- A request for a row fits the channel. -/
theorem fitsChannel_rowRequest {type : RequestType} (h : type = .read ∨ type = .write)
    (reqid : ℕ) (row : ℤ) : FitsChannel oneRank (rowRequest type reqid row) :=
  .access h rfl (r := 0) (b := 0) ⟨rfl, rfl, by decide, by decide⟩

/-- A controller that took a write, a read that the write answers and a read of another row. -/
def busy : Controller :=
  [rowRequest .write 1 5, rowRequest .read 2 5, rowRequest .read 3 6].foldl
    (fun c req => (c.enqueue oneRank req).1) (Controller.new oneRank)

/-- The controller is the end of a run that took the three requests. -/
theorem runOf_busy : ∃ log, RunOf oneRank log busy ∧
    log.map (fun e => (e.reqid, e.writes.map Request.reqid)) = [(3, [1]), (2, [1]), (1, [])] := by
  have hwrite := RunOf.new.enqueue (rowRequest .write 1 5)
    (fitsChannel_rowRequest (.inr rfl) 1 5) rfl
  have hread := hwrite.enqueue (rowRequest .read 2 5) (fitsChannel_rowRequest (.inl rfl) 2 5) rfl
  have hother := hread.enqueue (rowRequest .read 3 6) (fitsChannel_rowRequest (.inl rfl) 3 6) rfl
  exact ⟨_, hother, rfl⟩

/-- A controller that has done nothing but to count its cycles. -/
def idle (k : ControllerKnobs) (clk : ℤ) : Controller :=
  { Controller.new k with clk := clk, refreshClk := clk }

/-- As long as no refresh is due, a tick of an idle controller only counts. -/
theorem tick_idle (k : ControllerKnobs) {clk : ℤ} (h : clk + 1 < k.speed.nREFI) :
    (idle k clk).tick k = .ok (idle k (clk + 1)) := by
  have hdue : ¬k.speed.nREFI ≤ clk + 1 - 0 := by omega
  have href : Controller.tickRef k { idle k clk with clk := clk + 1 } = .ok (idle k (clk + 1)) :=
    if_neg hdue
  have hserve : (idle k (clk + 1)).serve k = .ok (idle k (clk + 1)) := by
    unfold Controller.serve Controller.speculate Controller.getVictim
    cases k.rowpolicy <;> rfl
  calc (idle k clk).tick k
      = Controller.tickRef k { idle k clk with clk := clk + 1 } >>= fun c =>
          c.scheduleWrites k >>= fun c => c.serve k := rfl
    _ = (idle k (clk + 1)).serve k := by
        rw [href]
        rfl
    _ = .ok (idle k (clk + 1)) := hserve

/-- An idle controller is the end of a run until a refresh is due. -/
theorem runOf_idle (k : ControllerKnobs) (n : ℕ) (h : (n : ℤ) < k.speed.nREFI) :
    RunOf k [] (idle k n) := by
  induction n with
  | zero => exact .new
  | succ n ih =>
    have hstep : (idle k n).tick k = .ok (idle k (n + 1)) :=
      tick_idle k (by
        push_cast at h
        exact h)
    rw [Nat.cast_succ]
    exact (ih (by
      push_cast at h
      omega)).tick hstep

/-- A controller that took some refreshes of its first rank. -/
def refreshing (k : ControllerKnobs) : ℕ → Controller → Controller
  | 0, c => c
  | n + 1, c => (refreshing k n c).enqueue k (Controller.refreshRequest k 0) |>.1

/-- Refreshes go on with a run and are no reads or writes. -/
theorem RunOf.refreshing (h : RunOf k log c) (hranks : 0 < k.ranks) (n : ℕ) :
    RunOf k log (refreshing k n c) := by
  induction n with
  | zero => exact h
  | succ n ih =>
    have hnext := ih.enqueue (Controller.refreshRequest k 0) (fitsChannel_refreshRequest hranks) rfl
    have htaken (ok : Bool) : taken log (Ramulator.refreshing k n c)
        (Controller.refreshRequest k 0) ok = log :=
      if_neg fun haccess => by
        rcases haccess.2 with h | h <;> cases h
    rw [htaken] at hnext
    exact hnext

/-! ## What holds in every run -/

/-- In every run a tick fails exactly when a refresh is due and its queue has no room for all
ranks; and the queues that take new requests keep within their capacity. -/
theorem tick_fails_iff_refused (h : RunOf k log c) (hlatency : 2 ≤ k.readLatency) :
    Roomy k c ∧ ∀ e, c.tick k = .error e ↔
      e = .refreshRefused ∧ k.speed.nREFI ≤ c.refreshClk + 1 - c.refreshed ∧
        k.queueMax < c.otherq.length + k.ranks := by
  obtain ⟨v, hsound⟩ := h.sound hlatency
  refine ⟨h.roomy, ?_⟩
  intro e
  constructor
  · intro hfails
    have hmeets := hsound.tick hlatency
    rw [hfails] at hmeets
    exact hmeets
  · rintro ⟨rfl, hdue, hroom⟩
    obtain ⟨hnext, hfresh⟩ := hsound.nextClk
    obtain ⟨c₁, hc₁, -, -, hotherq, hrefreshClk, hrefreshed⟩ :=
      (hnext.serveCompleted hfresh).exists_result
    have hrefused : c₁.tickRef k = .error .refreshRefused :=
      tickRef_refused (by rw [hotherq]; exact h.roomy .otherq (by simp))
        (by rw [hrefreshClk, hrefreshed]; exact hdue) (by rw [hotherq]; exact hroom)
    unfold Controller.tick
    rw [hc₁]
    exact congrArg (· >>= fun c => c.scheduleWrites k >>= fun c => c.serve k) hrefused

/-- The theorem at a controller whose queue is full of refreshes when the next one is due. -/
theorem tick_fails_iff_refused_due :
    ∃ c, RunOf oneRank [] c ∧ c.otherq.length = 32 ∧ c.refreshClk = 6239 ∧
      (Roomy oneRank c ∧ ∀ e, c.tick oneRank = .error e ↔
        e = .refreshRefused ∧ oneRank.speed.nREFI ≤ c.refreshClk + 1 - c.refreshed ∧
          oneRank.queueMax < c.otherq.length + oneRank.ranks) ∧
      c.tick oneRank = .error .refreshRefused := by
  have hidle := runOf_idle oneRank 6239 (by decide)
  have hfull := hidle.refreshing (by decide) 32
  have hiff := tick_fails_iff_refused hfull (by decide)
  refine ⟨_, hfull, by decide +kernel, by decide +kernel, hiff, (hiff.2 _).mpr ⟨rfl, ?_, ?_⟩⟩
  · decide +kernel
  · decide +kernel

/-- Every read and write that was taken is in one place.  No waiting write could answer those that
wait for a command; a read that waits for data, or was called back, was answered by a write of its
address that had been taken before and was waiting when the read arrived, or had its own command;
a write was called back with its command. -/
structure Conserved (k : ControllerKnobs) (log : List Arrival) (c : Controller) : Prop where
  writes : WritesTaken log
  booked : (log.map Arrival.reqid).Perm
    ((c.readq ++ c.writeq ++ c.actq ++ (c.pending ++ c.served.map Prod.snd)).map Request.reqid)
  uncovered : ∀ req ∈ c.readq ++ c.writeq ++ c.actq, Uncovered log req
  pending : ∀ req ∈ c.pending, Awaits k log c.cmdTrace req
  served : ∀ s ∈ c.served, CalledBack k log c.cmdTrace c.clk s
  accesses : (c.cmdTrace.countP fun i => isAccessing i.cmd) =
    (c.pending ++ c.served.map Prod.snd).countP fun req => ¬Forwarded log req

/-- The requests that wait for a command were not answered when they arrived. -/
theorem Sound.uncovered {v : Banks} {owed : ℕ} (h : Sound k log v owed c) :
    ∀ req ∈ waiting c, Uncovered log req := by
  intro req hreq
  rcases List.mem_append.mp hreq with hreq | hact
  · rcases List.mem_append.mp hreq with hread | hwrite
    · have hbelongs := h.queues .readq req hread
      exact hbelongs.logged (.inl (hbelongs.readq rfl))
    · have hbelongs := h.queues .writeq req hwrite
      exact hbelongs.logged (.inr (hbelongs.writeq rfl))
  · have hbelongs := h.queues .actq req hact
    exact hbelongs.logged (hbelongs.actq rfl)

/-- Of the requests that were answered, those that departed within a cycle are those that a
waiting write answered. -/
theorem Sound.forwarded_iff {v : Banks} {owed : ℕ} (h : Sound k log v owed c) :
    ∀ req ∈ answered c, Forwarded log req ↔ Prompt req := by
  intro req hreq
  rcases List.mem_append.mp hreq with hpending | hserved
  · exact (h.pending req hpending).forwarded_iff
  · obtain ⟨s, hs, rfl⟩ := List.mem_map.mp hserved
    have hback := h.served s hs
    rcases hback.access with hread | hwrite
    · exact (hback.read hread).1.forwarded_iff
    · have hnot : s.2.type ≠ .read := by
        rw [hwrite]
        decide
      exact ⟨fun hf => absurd hf.1 hnot, fun hp => absurd hp.1 hnot⟩

/-- In every run the requests that were taken are those that wait for a command, those that wait
for data and those that were called back, each once; each request called back had its own command
or was answered by a write that was waiting; and there were as many accesses as requests that had
one. -/
theorem requests_conserved (h : RunOf k log c) (hlatency : 2 ≤ k.readLatency) :
    Conserved k log c := by
  obtain ⟨v, hsound⟩ := h.sound hlatency
  refine ⟨hsound.writes, hsound.booked, hsound.uncovered, hsound.pending, hsound.served, ?_⟩
  refine hsound.accesses.trans (List.countP_congr ?_)
  intro req hreq
  rw [decide_eq_true_iff, decide_eq_true_iff, hsound.forwarded_iff req hreq]

/-- The theorem at a controller that has answered a read by a write, a read by its own command and
then the write. -/
theorem requests_conserved_three :
    ∃ log c, RunOf oneRank log c ∧ log.map Arrival.reqid = [3, 2, 1] ∧
      c.served.map (fun s => (s.1, s.2.reqid)) = [(1, 2), (27, 3), (51, 1)] ∧
      Conserved oneRank log c := by
  obtain ⟨log, hbusy, hlog⟩ := runOf_busy
  obtain ⟨c, hrun, hserved⟩ := hbusy.exists_ticks 51
    (fun c => c.served.map fun s => (s.1, s.2.reqid)) [(1, 2), (27, 3), (51, 1)]
    (by decide +kernel)
  have hids : log.map Arrival.reqid = [3, 2, 1] := by
    have hfirst := congrArg (List.map Prod.fst) hlog
    rwa [List.map_map] at hfirst
  exact ⟨log, c, hrun, hids, hserved, requests_conserved hrun (by decide)⟩

/-- In every run at most one command was issued a cycle, and each command only when no timing
parameter of the standard, read over the commands before it, forbade it. -/
theorem commands_respect_timing (h : RunOf k log c) (hlatency : 2 ≤ k.readLatency) :
    (c.cmdTrace.Pairwise fun i j => i.clk < j.clk) ∧ (∀ i ∈ c.cmdTrace, 0 ≤ i.clk ∧ i.clk ≤ c.clk) ∧
      Respects k c.cmdTrace.reverse := by
  obtain ⟨v, hsound⟩ := h.sound hlatency
  exact ⟨hsound.ordered, hsound.traced, hsound.respects⟩

/-- The theorem at a controller that has opened a row, read it, closed it and written another. -/
theorem commands_respect_timing_two_rows :
    ∃ log c, RunOf oneRank log c ∧ c.cmdTrace.map (fun i => (i.cmd, i.clk)) =
        [(.act, 1), (.rd, 12), (.pre, 29), (.act, 40), (.wr, 51)] ∧
      (c.cmdTrace.Pairwise fun i j => i.clk < j.clk) ∧
      (∀ i ∈ c.cmdTrace, 0 ≤ i.clk ∧ i.clk ≤ c.clk) ∧ Respects oneRank c.cmdTrace.reverse := by
  obtain ⟨log, hbusy, -⟩ := runOf_busy
  obtain ⟨c, hrun, htrace⟩ := hbusy.exists_ticks 51
    (fun c => c.cmdTrace.map fun i => (i.cmd, i.clk))
    [(.act, 1), (.rd, 12), (.pre, 29), (.act, 40), (.wr, 51)] (by decide +kernel)
  exact ⟨log, c, hrun, htrace, commands_respect_timing hrun (by decide)⟩

end Runs

end MacSim.Analysis.Ramulator
