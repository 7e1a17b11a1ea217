import MacSim.Analysis.RamulatorServing

/-!
# The cycles of a DDR3 controller

What a controller keeps from cycle to cycle: its channel represents ranks and banks and records the
commands that were issued, its table of rows agrees with the banks, its counters with the requests
under way, and every request that was taken is in one place.  Each part of a cycle keeps that, and
none of them fails an assertion but the one on a refresh that finds its queue full.
-/

set_option autoImplicit false

namespace MacSim.Analysis.Ramulator

open MacSim.Model.Ramulator MacSim.Model.Ramulator.Ddr3 MacSim.Computation

/-! ## What a controller keeps -/

/-- The request is a read or a write. -/
def IsAccess (req : Request) : Prop :=
  req.type = .read ∨ req.type = .write

instance : DecidablePred IsAccess := fun req =>
  inferInstanceAs (Decidable (req.type = .read ∨ req.type = .write))

/-- The reads and writes that wait for a command. -/
def waiting (c : Controller) : List Request :=
  c.readq ++ c.writeq ++ c.actq

/-- A read or write that was taken, as it arrived, and the writes that were waiting then. -/
structure Arrival where
  req : Request
  writes : List Request

/-- The name of the request that arrived. -/
def Arrival.reqid (e : Arrival) : ℕ :=
  e.req.reqid

/-- It is this request that arrived: since then it was marked as started at most, and its time to
depart was set. -/
def Arrival.Of (e : Arrival) (req : Request) : Prop :=
  e.req.reqid = req.reqid ∧ e.req.type = req.type ∧ e.req.addr = req.addr ∧
    e.req.arrive = req.arrive

instance (e : Arrival) (req : Request) : Decidable (e.Of req) :=
  inferInstanceAs (Decidable (_ ∧ _ ∧ _ ∧ _))

/-- A read arrived while a write of its address was waiting. -/
def Arrival.Covered (e : Arrival) : Prop :=
  e.req.type = .read ∧ ∃ wreq ∈ e.writes, e.req.addr = wreq.addr

instance (e : Arrival) : Decidable e.Covered :=
  inferInstanceAs (Decidable (_ ∧ ∃ wreq ∈ e.writes, e.req.addr = wreq.addr))

/-- The writes that a request found waiting had been taken before it; the newest is first. -/
def WritesTaken : List Arrival → Prop
  | [] => True
  | e :: before =>
    (∀ wreq ∈ e.writes, wreq.type = .write ∧ ∃ e' ∈ before, e'.Of wreq) ∧ WritesTaken before

/-- The read was answered by a write of its address that was waiting when the read arrived, and
departs a cycle later. -/
def Forwarded (log : List Arrival) (req : Request) : Prop :=
  req.type = .read ∧ req.depart = req.arrive + 1 ∧ ∃ e ∈ log, e.Of req ∧ e.Covered

instance (log : List Arrival) : DecidablePred (Forwarded log) := fun req =>
  inferInstanceAs (Decidable (_ ∧ _ ∧ ∃ e ∈ log, e.Of req ∧ e.Covered))

/-- No waiting write could answer the request when it arrived. -/
def Uncovered (log : List Arrival) (req : Request) : Prop :=
  ∃ e ∈ log, e.Of req ∧ ¬e.Covered

/-- The read departs within a cycle, by which the controller tells that it had no command. -/
def Prompt (req : Request) : Prop :=
  req.type = .read ∧ req.depart - req.arrive ≤ 1

instance : DecidablePred Prompt := fun req =>
  inferInstanceAs (Decidable (req.type = .read ∧ req.depart - req.arrive ≤ 1))

/-- The requests that were started and are not done, of those that wait for a command and those
that wait for data. -/
def underway (waiting pending : List Request) : List (ℕ → ℤ) :=
  ((waiting.filter fun req => !req.isFirstCommand) ++
    pending.filter fun req => 1 < req.depart - req.arrive).map Request.addrVec

/-- The requests that had their command, or needed none. -/
def answered (c : Controller) : List Request :=
  c.pending ++ c.served.map Prod.snd

/-- The requests that a queue is for. -/
structure Belongs (k : ControllerKnobs) (log : List Arrival) (clk : ℤ)
    (name : Controller.QueueName) (req : Request) : Prop where
  fits : FitsChannel k req
  arrived : req.arrive ≤ clk
  logged : IsAccess req → Uncovered log req
  readq : name = .readq → req.type = .read
  writeq : name = .writeq → req.type = .write
  actq : name = .actq → IsAccess req
  otherq : name = .otherq → ¬IsAccess req

/-- The request had its own command, with or without a precharge. -/
def HadCommand (trace : List (Issued Command)) (req : Request) (i : Issued Command) : Prop :=
  i ∈ trace ∧ (i.cmd = translate req.type ∨ i.cmd = autoPrecharge (translate req.type)) ∧
    i.addr = req.addrVec ∧ req.arrive ≤ i.clk

/-- The read had its own command, since no waiting write could answer it, and its data come at a
fixed time after the command. -/
structure HadRead (k : ControllerKnobs) (log : List Arrival) (trace : List (Issued Command))
    (req : Request) : Prop where
  uncovered : Uncovered log req
  command : ∃ i, HadCommand trace req i ∧ req.depart = i.clk + k.readLatency
  late : 1 < req.depart - req.arrive

/-- A read that waits for its data: they come from a write that was waiting when the read arrived,
or by the read's own command. -/
structure Awaits (k : ControllerKnobs) (log : List Arrival) (trace : List (Issued Command))
    (req : Request) : Prop where
  type_eq : req.type = .read
  fits : FitsChannel k req
  source : Forwarded log req ∨ HadRead k log trace req

/-- A request that was called back: a read not before its data came, a write with its command. -/
structure CalledBack (k : ControllerKnobs) (log : List Arrival) (trace : List (Issued Command))
    (clk : ℤ) (s : ℤ × Request) : Prop where
  by_now : s.1 ≤ clk
  access : IsAccess s.2
  read : s.2.type = .read → Awaits k log trace s.2 ∧ s.2.depart ≤ s.1
  write : s.2.type = .write → ∃ i, HadCommand trace s.2 i ∧ i.clk = s.1

/-- Each command of a history, newest first, was issued when the timing of those before allowed
it. -/
def Respects (k : ControllerKnobs) : List (Issued Command) → Prop
  | [] => True
  | i :: past =>
    BoundsMet k.dram.toTimingTable (childCount k.dram) past i.cmd i.addr 0 i.clk ∧
      Respects k past

/-- What a controller keeps.  Its ranks and banks are `v`, `log` are the reads and writes it has
taken, the newest first, and `owed` of them had a command and no answer yet. -/
structure Sound (k : ControllerKnobs) (log : List Arrival) (v : Banks) (owed : ℕ)
    (c : Controller) : Prop where
  channel : ChannelSound k c.cmdTrace.reverse v c.channel.root
  rows : Mirrors k.ranks k.banks k.id v c.rowtable
  counts : Counts (childCount k.dram) (underway (waiting c) c.pending) (fun _ => k.id) c.channel.root
  clock : 0 ≤ c.clk
  traced : ∀ i ∈ c.cmdTrace, 0 ≤ i.clk ∧ i.clk ≤ c.clk
  ordered : c.cmdTrace.Pairwise fun i j => i.clk < j.clk
  respects : Respects k c.cmdTrace.reverse
  queues : ∀ name, ∀ req ∈ c.queue name, Belongs k log c.clk name req
  writes : WritesTaken log
  pending : ∀ req ∈ c.pending, Awaits k log c.cmdTrace req
  served : ∀ s ∈ c.served, CalledBack k log c.cmdTrace c.clk s
  booked : (log.map Arrival.reqid).Perm ((waiting c ++ answered c).map Request.reqid)
  accesses : (c.cmdTrace.countP fun i => isAccessing i.cmd) =
    ((answered c).countP fun req => ¬Prompt req) + owed

/-! ## Longer logs and histories -/

section Longer

variable {k : ControllerKnobs} {log log' : List Arrival} {trace trace' : List (Issued Command)}
  {clk : ℤ} {req : Request}

/-- A read that was forwarded stays one when more requests arrive. -/
theorem Forwarded.mono (h : Forwarded log req) (hlog : log ⊆ log') : Forwarded log' req :=
  have ⟨hread, hdepart, e, he, hof⟩ := h
  ⟨hread, hdepart, e, hlog he, hof⟩

/-- What was found when a request arrived is not changed by those that arrive later. -/
theorem Uncovered.mono (h : Uncovered log req) (hlog : log ⊆ log') : Uncovered log' req :=
  have ⟨e, he, hof⟩ := h
  ⟨e, hlog he, hof⟩

/-- A request stays in its queue when more requests arrive. -/
theorem Belongs.mono {name : Controller.QueueName} (h : Belongs k log clk name req)
    (hlog : log ⊆ log') : Belongs k log' clk name req :=
  { h with logged := fun haccess => (h.logged haccess).mono hlog }

/-- A command stays in a longer history. -/
theorem HadCommand.mono {i : Issued Command} (h : HadCommand trace req i)
    (htrace : trace ⊆ trace') : HadCommand trace' req i :=
  ⟨htrace h.1, h.2⟩

/-- A read waits for the same data when more requests arrive and more commands are issued. -/
theorem Awaits.mono (h : Awaits k log trace req) (hlog : log ⊆ log') (htrace : trace ⊆ trace') :
    Awaits k log' trace' req where
  type_eq := h.type_eq
  fits := h.fits
  source := h.source.imp (fun hforwarded => hforwarded.mono hlog) fun hread =>
    have ⟨i, hi, hdepart⟩ := hread.command
    ⟨hread.uncovered.mono hlog, ⟨i, hi.mono htrace, hdepart⟩, hread.late⟩

/-- What was called back stays so when more requests arrive and more commands are issued. -/
theorem CalledBack.mono {s : ℤ × Request} (h : CalledBack k log trace clk s) (hlog : log ⊆ log')
    (htrace : trace ⊆ trace') : CalledBack k log' trace' clk s where
  by_now := h.by_now
  access := h.access
  read hread := ⟨(h.read hread).1.mono hlog htrace, (h.read hread).2⟩
  write hwrite :=
    have ⟨i, hi, hclk⟩ := h.write hwrite
    ⟨i, hi.mono htrace, hclk⟩

/-- The reads that departed within a cycle are those that a waiting write answered. -/
theorem Awaits.forwarded_iff (h : Awaits k log trace req) : Forwarded log req ↔ Prompt req := by
  constructor
  · intro hforwarded
    have hdepart := hforwarded.2.1
    exact ⟨h.type_eq, by omega⟩
  · intro hprompt
    rcases h.source with hforwarded | hread
    · exact hforwarded
    · exact absurd hread.late (not_lt.mpr hprompt.2)

end Longer

/-! ## Queues -/

section Queues

variable {k : ControllerKnobs} {c : Controller} {name : Controller.QueueName} {q : List Request}

/-- A queue that is set has the requests it is given, and the others keep theirs. -/
theorem queue_setQueue (c : Controller) (name other : Controller.QueueName) (q : List Request) :
    (c.setQueue name q).queue other = if other = name then q else c.queue other := by
  cases name <;> cases other <;> rfl

/-- A waiting queue without one of its requests. -/
theorem waiting_setQueue (hname : name ≠ .otherq) {rest : List Request} {req : Request}
    (hq : q.Perm (req :: rest)) :
    (waiting (c.setQueue name q)).Perm (req :: waiting (c.setQueue name rest)) := by
  cases name with
  | readq =>
    exact ((hq.append_right c.writeq).append_right c.actq)
  | writeq =>
    refine ((hq.append_left c.readq).append_right c.actq).trans ?_
    exact (List.perm_middle.append_right c.actq)
  | actq => exact (hq.append_left (c.readq ++ c.writeq)).trans List.perm_middle
  | otherq => exact absurd rfl hname

/-- A queue that is set to what it is leaves the controller as it is. -/
theorem setQueue_queue (c : Controller) (name : Controller.QueueName) :
    c.setQueue name (c.queue name) = c := by
  cases name <;> rfl

/-- Taking a request out of a queue leaves the others. -/
theorem perm_cons_eraseIdx {q : List Request} {place : ℕ} {req : Request}
    (h : q[place]? = some req) : q.Perm (req :: q.eraseIdx place) := by
  obtain ⟨hlt, rfl⟩ := List.getElem?_eq_some_iff.mp h
  exact (List.getElem_cons_eraseIdx_perm hlt).symm

/-- A request may be exchanged for another one in its place. -/
theorem set_perm_cons_eraseIdx {q : List Request} {place : ℕ} {req : Request} (req' : Request)
    (h : q[place]? = some req) : (q.set place req').Perm (req' :: q.eraseIdx place) := by
  obtain ⟨hlt, rfl⟩ := List.getElem?_eq_some_iff.mp h
  exact List.set_perm_cons_eraseIdx hlt req'

end Queues

/-! ## The beginning -/

/-- A new controller keeps it all. -/
theorem sound_new (k : ControllerKnobs) : Sound k [] .allClosed 0 (Controller.new k) where
  channel := ⟨shows_construct k.id, treeRecords_construct k.dram _ rfl rfl⟩
  rows := mirrors_nil
  counts := counts_construct k.dram _ rfl rfl
  clock := le_rfl
  traced i hi := by cases hi
  ordered := .nil
  respects := trivial
  queues name req hreq := by cases name <;> cases hreq
  writes := trivial
  pending req hreq := by cases hreq
  served s hs := by cases hs
  booked := .nil
  accesses := rfl

/-! ## Taking a request -/

section Underway

variable {w w' p : List Request} {req : Request}

/-- The requests underway do not depend on the order of those waiting. -/
theorem underway_perm (h : w.Perm w') : (underway w p).Perm (underway w' p) :=
  ((h.filter _).append_right _).map _

/-- A request that has not started is not underway. -/
theorem underway_cons_first (h : req.isFirstCommand = true) :
    underway (req :: w) p = underway w p := by
  unfold underway
  rw [List.filter_cons_of_neg (by simp [h])]

/-- A request that has started is underway. -/
theorem underway_cons_started (h : req.isFirstCommand = false) :
    underway (req :: w) p = req.addrVec :: underway w p := by
  unfold underway
  rw [List.filter_cons_of_pos (by simp [h])]
  rfl

/-- A request that departs at once adds none underway. -/
theorem underway_append_pending (h : req.depart - req.arrive ≤ 1) :
    underway w (p ++ [req]) = underway w p := by
  unfold underway
  rw [List.filter_append, List.filter_cons_of_neg (by simpa using h), List.filter_nil,
    List.append_nil]

/-- A request with a later departure is underway. -/
theorem underway_append_pending_perm (h : 1 < req.depart - req.arrive) :
    (underway w (p ++ [req])).Perm (req.addrVec :: underway w p) := by
  unfold underway
  rw [List.filter_append, List.filter_cons_of_pos (by simpa using h), List.filter_nil,
    ← List.append_assoc, List.map_append]
  exact List.perm_append_singleton _ _

end Underway

/-- A request as it arrives at a controller. -/
def arrival (c : Controller) (req : Request) : Arrival where
  req := { req with arrive := c.clk }
  writes := c.writeq

/-- The reads and writes that were taken, after one more request came to the controller. -/
def taken (log : List Arrival) (c : Controller) (req : Request) (ok : Bool) : List Arrival :=
  if ok = true ∧ IsAccess req then arrival c req :: log else log

section Taking

variable {k : ControllerKnobs} {c : Controller} {log : List Arrival} {v : Banks} {owed : ℕ}
  {req : Request}

/-- What is neither read nor write goes to the last queue. -/
theorem getQueue_eq_otherq {type : RequestType} :
    Controller.getQueue type = .otherq ↔ ¬(type = .read ∨ type = .write) := by
  cases type <;> simp [Controller.getQueue]

/-- A request belongs to the queue of its type. -/
theorem belongs_getQueue (hfits : FitsChannel k req) {clk : ℤ} (harrive : req.arrive ≤ clk)
    (hlogged : IsAccess req → Uncovered log req) :
    Belongs k log clk (Controller.getQueue req.type) req where
  fits := hfits
  arrived := harrive
  logged := hlogged
  readq h := by
    cases htype : req.type <;> simp [htype, Controller.getQueue] at h ⊢
  writeq h := by
    cases htype : req.type <;> simp [htype, Controller.getQueue] at h ⊢
  actq h := by
    cases htype : req.type <;> simp [htype, Controller.getQueue] at h
  otherq h := getQueue_eq_otherq.mp h

/-- Where a request is waiting once it is taken. -/
theorem waiting_enqueue (c : Controller) (req : Request) :
    (waiting (c.setQueue (Controller.getQueue req.type)
      (c.queue (Controller.getQueue req.type) ++ [req]))).Perm
        (if IsAccess req then req :: waiting c else waiting c) := by
  by_cases haccess : IsAccess req
  · rw [if_pos haccess]
    have hname : Controller.getQueue req.type ≠ .otherq := fun h =>
      getQueue_eq_otherq.mp h haccess
    have hwaiting := waiting_setQueue (c := c) hname
      (List.perm_append_singleton req (c.queue (Controller.getQueue req.type)))
    rw [setQueue_queue] at hwaiting
    exact hwaiting
  · rw [if_neg haccess, getQueue_eq_otherq.mpr haccess]
    exact .refl _

/-- One more request is answered. -/
theorem answered_cons (c : Controller) (req : Request) :
    (answered { c with pending := c.pending ++ [req] }).Perm (req :: answered c) := by
  unfold answered
  rw [List.append_assoc]
  exact List.perm_middle

/-- The answers with one more pending request are counted like those with it in front. -/
theorem countP_answered_cons (c : Controller) (req : Request) :
    (answered { c with pending := c.pending ++ [req] }).countP (fun req => ¬Prompt req) =
      (req :: answered c).countP fun req => ¬Prompt req :=
  (answered_cons c req).countP_eq _

/-- The writes that wait were taken. -/
theorem Sound.writesTaken (h : Sound k log v owed c) (req : Request) :
    WritesTaken (arrival c req :: log) := by
  refine ⟨?_, h.writes⟩
  intro wreq hwreq
  have hbelongs := h.queues .writeq wreq hwreq
  obtain ⟨e, he, hof, -⟩ := hbelongs.logged (.inr (hbelongs.writeq rfl))
  exact ⟨hbelongs.writeq rfl, e, he, hof⟩

/-- A read that is answered from the write queue. -/
theorem Sound.forward (h : Sound k log v owed c)
    (hfits : FitsChannel k { req with arrive := c.clk, depart := c.clk + 1 })
    (hread : req.type = .read) (hwrite : ∃ wreq ∈ c.writeq, req.addr = wreq.addr) :
    Sound k (arrival c req :: log) v owed
      { c with pending := c.pending ++ [{ req with arrive := c.clk, depart := c.clk + 1 }] } := by
  have hforwarded : Forwarded (arrival c req :: log)
      { req with arrive := c.clk, depart := c.clk + 1 } :=
    ⟨hread, rfl, _, List.mem_cons_self .., ⟨rfl, rfl, rfl, rfl⟩, hread, hwrite⟩
  have hid : (arrival c req).reqid =
      ({ req with arrive := c.clk, depart := c.clk + 1 } : Request).reqid := rfl
  have htype : ({ req with arrive := c.clk, depart := c.clk + 1 } : Request).type = .read := hread
  have hlatency : ({ req with arrive := c.clk, depart := c.clk + 1 } : Request).depart -
      ({ req with arrive := c.clk, depart := c.clk + 1 } : Request).arrive ≤ 1 := by
    dsimp only
    omega
  generalize ({ req with arrive := c.clk, depart := c.clk + 1 } : Request) = data at *
  have hlog : log ⊆ arrival c req :: log := List.subset_cons_self ..
  exact { h with
    queues := fun name other hother => (h.queues name other hother).mono hlog
    writes := h.writesTaken req
    served := fun s hs => (h.served s hs).mono hlog (List.Subset.refl _)
    counts := by
      have hsame : underway (waiting c) (c.pending ++ [data]) = underway (waiting c) c.pending :=
        underway_append_pending hlatency
      exact hsame.symm ▸ h.counts
    pending := by
      intro other hother
      rcases List.mem_append.mp hother with hother | hother
      · exact (h.pending other hother).mono hlog (List.Subset.refl _)
      · obtain rfl := List.mem_singleton.mp hother
        exact ⟨htype, hfits, .inl hforwarded⟩
    booked := by
      have hperm : (waiting c ++ answered { c with pending := c.pending ++ [data] }).Perm
          (data :: (waiting c ++ answered c)) :=
        ((answered_cons c data).append_left _).trans List.perm_middle
      rw [List.map_cons, hid]
      exact (h.booked.cons _).trans (hperm.map Request.reqid).symm
    accesses := by
      have hprompt : Prompt data := ⟨htype, hlatency⟩
      rw [countP_answered_cons, List.countP_cons_of_neg (by simpa using hprompt)]
      exact h.accesses }

/-- Other queues in the place of those that wait for commands. -/
theorem Sound.requeue (h : Sound k log v owed c) {log' : List Arrival} {c' : Controller}
    (hsame : ∃ r w a o, c' = { c with readq := r, writeq := w, actq := a, otherq := o })
    (hlog : log ⊆ log') (hwrites : WritesTaken log')
    (hqueues : ∀ name, ∀ req ∈ c'.queue name, Belongs k log' c.clk name req)
    (hcounts : Counts (childCount k.dram) (underway (waiting c') c.pending) (fun _ => k.id)
      c.channel.root)
    (hbooked : (log'.map Arrival.reqid).Perm ((waiting c' ++ answered c).map Request.reqid)) :
    Sound k log' v owed c' := by
  obtain ⟨r, w, a, o, rfl⟩ := hsame
  exact { h with
    writes := hwrites
    counts := hcounts
    queues := hqueues
    pending := fun req hreq => (h.pending req hreq).mono hlog (List.Subset.refl _)
    served := fun s hs => (h.served s hs).mono hlog (List.Subset.refl _)
    booked := hbooked }

/-- Setting a queue changes the queues only. -/
theorem setQueue_same (c : Controller) (name : Controller.QueueName) (q : List Request) :
    ∃ r w a o, c.setQueue name q = { c with readq := r, writeq := w, actq := a, otherq := o } := by
  cases name with
  | readq => exact ⟨q, c.writeq, c.actq, c.otherq, rfl⟩
  | writeq => exact ⟨c.readq, q, c.actq, c.otherq, rfl⟩
  | actq => exact ⟨c.readq, c.writeq, q, c.otherq, rfl⟩
  | otherq => exact ⟨c.readq, c.writeq, c.actq, q, rfl⟩

/-- All requests are in queues that are for them when those of one queue are replaced by such. -/
theorem queues_setQueue {clk : ℤ} (h : ∀ name, ∀ req ∈ c.queue name, Belongs k log clk name req)
    (name : Controller.QueueName) (q : List Request)
    (hq : ∀ req ∈ q, Belongs k log clk name req) :
    ∀ other, ∀ req ∈ (c.setQueue name q).queue other, Belongs k log clk other req := by
  intro other req hreq
  rw [queue_setQueue] at hreq
  split at hreq
  · rename_i hname
    exact hname ▸ hq req hreq
  · exact h other req hreq

/-- What was taken before is still known. -/
theorem subset_taken (log : List Arrival) (c : Controller) (req : Request) (ok : Bool) :
    log ⊆ taken log c req ok := by
  unfold taken
  split
  · exact List.subset_cons_self ..
  · exact List.Subset.refl _

/-- A request that is put into its queue. -/
theorem Sound.push (h : Sound k log v owed c) (hfits : FitsChannel k req)
    (hfirst : req.isFirstCommand = true) (harrive : req.arrive = c.clk)
    (hnone : ¬(req.type = .read ∧ ∃ wreq ∈ c.writeq, req.addr = wreq.addr)) :
    Sound k (taken log c req true) v owed (c.setQueue (Controller.getQueue req.type)
      (c.queue (Controller.getQueue req.type) ++ [req])) := by
  have hwaiting := waiting_enqueue c req
  have hlog := subset_taken log c req true
  apply h.requeue (setQueue_same c _ _) hlog
  · unfold taken
    split
    · exact h.writesTaken req
    · exact h.writes
  · apply queues_setQueue fun name other hother => (h.queues name other hother).mono hlog
    intro other hother
    rcases List.mem_append.mp hother with hother | hother
    · exact (h.queues _ other hother).mono hlog
    · obtain rfl := List.mem_singleton.mp hother
      refine belongs_getQueue hfits harrive.le fun haccess => ⟨arrival c other, ?_, ?_, hnone⟩
      · unfold taken
        rw [if_pos ⟨rfl, haccess⟩]
        exact List.mem_cons_self ..
      · exact ⟨rfl, rfl, rfl, harrive.symm⟩
  · refine h.counts.perm ((underway_perm hwaiting).trans ?_).symm
    split
    · rw [underway_cons_first hfirst]
    · exact .refl _
  · have hperm := (hwaiting.append_right (answered c)).map Request.reqid
    refine List.Perm.trans ?_ hperm.symm
    unfold taken
    by_cases haccess : IsAccess req
    · rw [if_pos ⟨rfl, haccess⟩, if_pos haccess]
      exact h.booked.cons _
    · rw [if_neg fun h => haccess h.2, if_neg haccess]
      exact h.booked

/-- A request that is taken, or refused. -/
theorem Sound.enqueue (h : Sound k log v owed c) (hfits : FitsChannel k req)
    (hfirst : req.isFirstCommand = true) :
    Sound k (taken log c req (c.enqueue k req).2) v owed (c.enqueue k req).1 := by
  have hfits' (arrive depart : ℤ) :
      FitsChannel k { req with arrive := arrive, depart := depart } := by
    cases hfits with
    | access type_eq id_eq haddr => exact .access type_eq id_eq haddr
    | rank type_eq id_eq haddr no_bank => exact .rank type_eq id_eq haddr no_bank
  unfold Controller.enqueue
  dsimp only
  split
  · exact h
  · split
    · rename_i hforward
      have htaken : taken log c req true = arrival c req :: log :=
        if_pos ⟨rfl, .inl hforward.1⟩
      rw [htaken]
      exact h.forward (hfits' c.clk (c.clk + 1)) hforward.1 hforward.2
    · rename_i hnone
      exact h.push (hfits' c.clk req.depart) hfirst rfl hnone

end Taking

/-! ## Completed reads -/

/-- No command was issued in this cycle yet. -/
def Fresh (c : Controller) : Prop :=
  ∀ i ∈ c.cmdTrace, i.clk < c.clk

/-- A bank has no children in the tree. -/
theorem childCount_bank (k : ControllerKnobs) {level : ℕ} (h : bankLevel ≤ level) :
    childCount k.dram level = 0 := by
  have h0 : level ≠ 0 := by
    unfold bankLevel at h
    omega
  have h1 : level ≠ 1 := by
    unfold bankLevel at h
    omega
  rw [childCount_dram, if_neg h0, if_neg h1]

/-- The address of a bank is well placed in the tree. -/
theorem InBank.wellPlaced {k : ControllerKnobs} {addr : ℕ → ℤ} {r b : ℕ}
    (h : InBank k.ranks k.banks addr r b) : WellPlaced (childCount k.dram) bankLevel addr where
  nonneg level hlevel := by
    rw [childCount_dram] at hlevel
    match level with
    | 0 => rw [h.rank_eq]; omega
    | 1 => rw [h.bank_eq]; omega
    | _ + 2 => simp at hlevel
  inTree := h.inTree
  deep level hlevel := childCount_bank k hlevel

/-- An access that fits the channel is well placed in the tree. -/
theorem FitsChannel.wellPlaced {k : ControllerKnobs} {req : Request} (h : FitsChannel k req)
    (haccess : IsAccess req) : WellPlaced (childCount k.dram) bankLevel req.addrVec := by
  cases h with
  | access type_eq id_eq haddr => exact haddr.wellPlaced
  | rank type_eq id_eq haddr no_bank =>
    rcases haccess with h | h <;> rw [h] at type_eq <;> simp at type_eq

/-- An address that fits the channel lies below its root. -/
theorem FitsChannel.below {k : ControllerKnobs} {req : Request} (h : FitsChannel k req) :
    Below req.addrVec 0 fun _ => k.id := by
  intro level hlevel
  rw [Nat.le_zero.mp hlevel]
  exact h.id_eq

/-- The counters do not matter to what the channel represents and records. -/
theorem ChannelSound.updateServing {k : ControllerKnobs} {past : List (Issued Command)}
    {v : Banks} {d d' : Dram Command State 0} {addr : ℕ → ℤ} {delta clk : ℤ}
    (h : ChannelSound k past v d)
    (hd : d.updateServingRequests bankLevel addr delta clk = some d') :
    ChannelSound k past v d' where
  shows := by
    rw [← shows_map, updateServing_map stateCells (fun _ _ _ => rfl) hd, shows_map]
    exact h.shows
  records := by
    rw [← treeRecords_map, updateServing_map Dram.timingCells (fun _ _ _ => rfl) hd,
      treeRecords_map]
    exact h.records

section Completing

variable {k : ControllerKnobs} {c : Controller} {log : List Arrival} {v : Banks} {owed : ℕ}
  {req : Request}

/-- The count of requests in service is updated in the whole tree. -/
theorem updateServing_succeeds {addr : ℕ → ℤ} {delta : ℤ} {addrs : List (ℕ → ℤ)}
    (hchannel : ChannelSound k c.cmdTrace.reverse v c.channel.root)
    (h : ∃ d', c.channel.root.updateServingRequests bankLevel addr delta c.clk = some d' ∧
      Counts (childCount k.dram) addrs (fun _ => k.id) d') :
    Succeeds (c.updateServing addr delta) fun c' =>
      ∃ root, c' = { c with channel := { c.channel with root := root } } ∧
        ChannelSound k c.cmdTrace.reverse v root ∧
        Counts (childCount k.dram) addrs (fun _ => k.id) root := by
  obtain ⟨root, hroot, hcounts⟩ := h
  unfold Controller.updateServing
  rw [hroot]
  exact ⟨root, rfl, hchannel.updateServing hroot, hcounts⟩

/-- The clock goes on. -/
theorem Sound.nextClk (h : Sound k log v owed c) :
    Sound k log v owed { c with clk := c.clk + 1 } ∧ Fresh { c with clk := c.clk + 1 } := by
  have hclock := h.clock
  refine ⟨{ h with
    clock := by
      dsimp only
      omega
    traced := fun i hi => ⟨(h.traced i hi).1, (h.traced i hi).2.trans (by simp)⟩
    queues := fun name req hreq =>
      have hold := h.queues name req hreq
      { hold with arrived := hold.arrived.trans (by simp) }
    served := fun s hs =>
      have hold := h.served s hs
      { hold with by_now := hold.by_now.trans (by simp) } }, ?_⟩
  intro i hi
  have hold := (h.traced i hi).2
  dsimp only
  omega

/-- A pending request is underway when it has a later departure. -/
theorem underway_cons_pending (w p : List Request) (req : Request) :
    (underway w (req :: p)).Perm
      (if 1 < req.depart - req.arrive then req.addrVec :: underway w p else underway w p) := by
  unfold underway
  split
  · rename_i h
    rw [List.filter_cons_of_pos (by simpa using h)]
    exact (List.perm_middle).map _
  · rename_i h
    rw [List.filter_cons_of_neg (by simpa using h)]

/-- The first of the reads that wait for data is called back when its time has come. -/
theorem Sound.serveCompleted (h : Sound k log v owed c) (hfresh : Fresh c) :
    Succeeds c.serveCompleted fun c' =>
      Sound k log v owed c' ∧ Fresh c' ∧ c'.otherq = c.otherq ∧
        c'.refreshClk = c.refreshClk ∧ c'.refreshed = c.refreshed := by
  unfold Controller.serveCompleted
  cases hpending : c.pending with
  | nil => exact ⟨h, hfresh, rfl, rfl, rfl⟩
  | cons req rest =>
    dsimp only
    have hreq := h.pending req (hpending ▸ List.mem_cons_self ..)
    have hcounts := h.counts
    rw [hpending] at hcounts
    have hcounts := hcounts.perm (underway_cons_pending (waiting c) rest req)
    have hretire : Succeeds (c.retireRead req) fun c' =>
        ∃ root, c' = { c with channel := { c.channel with root := root } } ∧
          ChannelSound k c.cmdTrace.reverse v root ∧
          Counts (childCount k.dram) (underway (waiting c) rest) (fun _ => k.id) root := by
      unfold Controller.retireRead
      split
      · rename_i hlate
        rw [if_pos hlate] at hcounts
        exact updateServing_succeeds h.channel
          (hcounts.remove c.clk (hreq.fits.wellPlaced (.inl hreq.type_eq)) hreq.fits.below)
      · rename_i hearly
        rw [if_neg hearly] at hcounts
        exact ⟨c.channel.root, rfl, h.channel, hcounts⟩
    split
    · rename_i hdue
      refine hretire.bind ?_
      rintro c' ⟨root, rfl, hchannel, hroot⟩
      have hanswered : (answered { c with
          channel := { c.channel with root := root }
          served := c.served ++ [(c.clk, req)]
          pending := rest }).Perm (answered c) := by
        unfold answered
        rw [hpending]
        simp only [List.map_append, List.map_cons, List.map_nil, List.cons_append]
        rw [← List.append_assoc]
        exact List.perm_append_singleton _ _
      refine ⟨{ h with
        channel := hchannel
        counts := hroot
        pending := fun other hother => h.pending other (hpending ▸ List.mem_cons_of_mem _ hother)
        served := ?_
        booked := h.booked.trans ((hanswered.symm.append_left _).map _)
        accesses := ?_ }, hfresh, rfl, rfl, rfl⟩
      · intro s hs
        rcases List.mem_append.mp hs with hs | hs
        · exact h.served s hs
        · obtain rfl := List.mem_singleton.mp hs
          refine ⟨le_rfl, .inl hreq.type_eq, fun _ => ⟨hreq, hdue⟩, ?_⟩
          intro hwrite
          rw [hreq.type_eq] at hwrite
          cases hwrite
      · rw [hanswered.countP_eq]
        exact h.accesses
    · exact ⟨h, hfresh, rfl, rfl, rfl⟩

end Completing

/-! ## Refreshes -/

section Refreshing

variable {k : ControllerKnobs} {c : Controller} {log : List Arrival} {v : Banks} {owed : ℕ}

/-- A refresh fits the channel. -/
theorem fitsChannel_refreshRequest {rank : ℕ} (hrank : rank < k.ranks) :
    FitsChannel k (Controller.refreshRequest k rank) :=
  .rank (.inl rfl) rfl (r := rank) ⟨rfl, hrank⟩ (by decide : (-1 : ℤ) < 0)

/-- What refreshes leave alone. -/
structure KeptByRefresh (c c' : Controller) : Prop where
  clk : c'.clk = c.clk
  trace : c'.cmdTrace = c.cmdTrace
  refreshClk : c'.refreshClk = c.refreshClk
  refreshed : c'.refreshed = c.refreshed

/-- A refresh that is taken makes its queue one longer; one that is refused finds it full. -/
theorem enqueue_refreshRequest (k : ControllerKnobs) (c : Controller) (rank : ℕ) :
    c.enqueue k (Controller.refreshRequest k rank) =
      if c.otherq.length = k.queueMax then (c, false)
      else ({ c with otherq := c.otherq ++
        [{ Controller.refreshRequest k rank with arrive := c.clk }] }, true) := by
  unfold Controller.enqueue
  by_cases hfull : c.otherq.length = k.queueMax
  · rw [if_pos hfull]
    exact if_pos hfull
  · rw [if_neg hfull]
    exact (if_neg hfull).trans (if_neg fun hread => by cases hread.1)

/-- Refreshes are refused only when there is no room for them all. -/
theorem Sound.injectRefresh (ranks : List ℕ) (hranks : ∀ r ∈ ranks, r < k.ranks)
    (h : Sound k log v owed c) :
    Meets (Controller.injectRefresh k ranks c)
      (fun c' => Sound k log v owed c' ∧ KeptByRefresh c c')
      (fun e => e = .refreshRefused ∧ k.queueMax < c.otherq.length + ranks.length) := by
  induction ranks generalizing c with
  | nil => exact ⟨h, rfl, rfl, rfl, rfl⟩
  | cons rank ranks ih =>
    have hnext := h.enqueue (fitsChannel_refreshRequest (hranks rank (List.mem_cons_self ..))) rfl
    unfold Controller.injectRefresh
    rw [enqueue_refreshRequest] at hnext ⊢
    by_cases hfull : c.otherq.length = k.queueMax
    · rw [if_pos hfull]
      refine ⟨rfl, ?_⟩
      rw [List.length_cons]
      omega
    · rw [if_neg hfull] at hnext ⊢
      dsimp only at hnext ⊢
      have htaken : taken log c (Controller.refreshRequest k rank) true = log :=
        if_neg (by simp [IsAccess, Controller.refreshRequest])
      rw [htaken] at hnext
      refine (ih (fun r hr => hranks r (List.mem_cons_of_mem _ hr)) hnext).mono ?_ ?_
      · rintro c' ⟨hsound, hkept⟩
        exact ⟨hsound, hkept.clk, hkept.trace, hkept.refreshClk, hkept.refreshed⟩
      · rintro e ⟨rfl, hroom⟩
        refine ⟨rfl, ?_⟩
        rw [List.length_append, List.length_singleton] at hroom
        rw [List.length_cons]
        omega

/-- The refresh timer puts a refresh of every rank into the queue when its interval is over. -/
theorem Sound.tickRef (h : Sound k log v owed c) (hfresh : Fresh c) :
    Meets (c.tickRef k) (fun c' => Sound k log v owed c' ∧ Fresh c')
      (fun e => e = .refreshRefused ∧ k.speed.nREFI ≤ c.refreshClk + 1 - c.refreshed ∧
        k.queueMax < c.otherq.length + k.ranks) := by
  have hclock : Sound k log v owed { c with refreshClk := c.refreshClk + 1 } := { h with }
  unfold Controller.tickRef
  dsimp only
  split
  · rename_i hdue
    have hinject := hclock.injectRefresh (List.range k.ranks) fun r hr => List.mem_range.mp hr
    refine (hinject.mono (fun c' hc' => hc') ?_).bind ?_
    · rintro e ⟨rfl, hroom⟩
      rw [List.length_range] at hroom
      exact ⟨rfl, hdue, hroom⟩
    · rintro c' ⟨hsound, hkept⟩
      refine ⟨{ hsound with }, ?_⟩
      intro i hi
      have hi' : i ∈ c.cmdTrace := by
        rw [← show c'.cmdTrace = c.cmdTrace from hkept.trace]
        exact hi
      rw [show _ = c.clk from hkept.clk]
      exact hfresh i hi'
  · exact ⟨hclock, hfresh⟩

/-- Which kind is served is a matter of the queues only. -/
theorem Sound.scheduleWrites (h : Sound k log v owed c) (hfresh : Fresh c) :
    Succeeds (c.scheduleWrites k) fun c' => Sound k log v owed c' ∧ Fresh c' := by
  have hmode (mode : Bool) :
      Sound k log v owed { c with writeMode := mode } ∧ Fresh { c with writeMode := mode } :=
    ⟨{ h with }, hfresh⟩
  have hhead (name : Controller.QueueName) :=
    getHead_succeeds h.channel h.clock fun req hreq => (h.queues name req hreq).fits
  unfold Controller.scheduleWrites
  split
  · exact hmode false
  · split
    · exact hmode true
    · split
      · exact hmode false
      · rename_i hreads hwrites
        refine (hhead .writeq).bind fun wreq hwreq => ?_
        refine (hhead .readq).bind fun rreq hrreq => ?_
        have hw : wreq ≠ none := hwreq.2 fun hnil => hwrites (List.length_eq_zero_iff.mpr hnil)
        have hr : rreq ≠ none := hrreq.2 fun hnil => hreads (List.length_eq_zero_iff.mpr hnil)
        cases wreq with
        | none => exact absurd rfl hw
        | some wreq =>
          cases rreq with
          | none => exact absurd rfl hr
          | some rreq => exact hmode _

end Refreshing

/-! ## Choosing -/

/-- A request that is to be served: it is at its place, the command is what it needs, and nothing
forbids the command now. -/
structure Chosen (k : ControllerKnobs) (c : Controller) (choice : Controller.Choice) : Prop where
  place : (c.queue choice.name)[choice.place]? = some choice.req
  served : choice.name = .actq ∨ choice.name = .otherq ∨
    choice.name = if c.writeMode then .writeq else .readq
  needs : c.channel.root.decode k.dram (translate choice.req.type) choice.req.addrVec =
    some choice.cmd
  ready : BoundsMet k.dram.toTimingTable (childCount k.dram) c.cmdTrace.reverse choice.cmd
    choice.req.addrVec 0 c.clk

section Choosing

variable {k : ControllerKnobs} {c : Controller} {log : List Arrival} {v : Banks} {owed : ℕ}

/-- The choice from a queue that may be served succeeds, and what it chooses may be served. -/
theorem Sound.chooseFrom (h : Sound k log v owed c) {name : Controller.QueueName}
    (hname : name = .actq ∨ name = .otherq ∨ name = if c.writeMode then .writeq else .readq) :
    Succeeds (c.chooseFrom k name) fun found => ∀ choice, found = some choice →
      Chosen k c choice := by
  have hqueue : ∀ req ∈ c.queue name, FitsChannel k req := fun req hreq =>
    (h.queues name req hreq).fits
  unfold Controller.chooseFrom
  refine (getHead_succeeds h.channel h.clock hqueue).bind fun found hfound => ?_
  cases found with
  | none =>
    rintro choice ⟨⟩
  | some found =>
    obtain ⟨req, place⟩ := found
    have hplace : (c.queue name)[place]? = some req := hfound.1 _ rfl
    have hfits := hqueue req (List.mem_of_getElem? hplace)
    refine (getFirstCmd_succeeds h.channel hfits).bind fun cmd hcmd => ?_
    refine (isReadyCmd_succeeds h.channel hfits.id_eq hfits.inTree h.clock).bind
      fun ready hready => ?_
    intro choice hchoice
    cases ready with
    | false => cases hchoice
    | true =>
      cases hchoice
      exact ⟨hplace, hname, hcmd, hready.mp rfl⟩

/-- The choice succeeds, and what it chooses may be served. -/
theorem Sound.choose (h : Sound k log v owed c) :
    Succeeds (c.choose k) fun found => ∀ choice, found = some choice → Chosen k c choice := by
  unfold Controller.choose
  refine (h.chooseFrom (.inl rfl)).bind fun found hfound => ?_
  cases found with
  | some choice => exact hfound
  | none =>
    apply h.chooseFrom
    split
    · exact .inr (.inl rfl)
    · exact .inr (.inr rfl)

/-! ## Starting -/

/-- What a request needs is a matter of the ranks and banks. -/
theorem decode_congr {d d' : Dram Command State 0} {req : Request} (hfits : FitsChannel k req)
    (h : Shows k.ranks k.banks v d) (h' : Shows k.ranks k.banks v d') :
    d'.decode k.dram (translate req.type) req.addrVec =
      d.decode k.dram (translate req.type) req.addrVec := by
  cases hfits with
  | access type_eq id_eq haddr =>
    have hcmd := translate_access type_eq
    exact (h'.decode_access (s := k.speed) hcmd haddr).trans
      (h.decode_access (s := k.speed) hcmd haddr).symm
  | rank type_eq id_eq haddr no_bank =>
    have hcmd : translate req.type = .ref ∨ translate req.type = .pde ∨
        translate req.type = .sre := by
      rcases type_eq with h | h | h <;> rw [h] <;> simp [Ddr3.translate]
    exact (h'.decode_rank (s := k.speed) hcmd haddr).trans
      (h.decode_rank (s := k.speed) hcmd haddr).symm

/-- The mark of a first command does not matter for the channel. -/
theorem FitsChannel.of_first {req : Request} (h : FitsChannel k req) (first : Bool) :
    FitsChannel k { req with isFirstCommand := first } := by
  cases h with
  | access type_eq id_eq haddr => exact .access type_eq id_eq haddr
  | rank type_eq id_eq haddr no_bank => exact .rank type_eq id_eq haddr no_bank

/-- The mark of a first command does not matter for the queue. -/
theorem Belongs.of_first {clk : ℤ} {name : Controller.QueueName} {req : Request}
    (h : Belongs k log clk name req) (first : Bool) :
    Belongs k log clk name { req with isFirstCommand := first } :=
  ⟨h.fits.of_first first, h.arrived, h.logged, h.readq, h.writeq, h.actq, h.otherq⟩

/-- The question for the row succeeds and changes nothing. -/
theorem askRow_succeeds {req : Request} (hchannel : ChannelSound k c.cmdTrace.reverse v
    c.channel.root) (hfits : FitsChannel k req) :
    Succeeds (c.askRow k req) fun c' => c' = c := by
  refine (isRowHit_succeeds hchannel hfits).bind fun hit _ => ?_
  cases hit
  · exact (isRowOpen_succeeds hchannel hfits).bind fun _ _ => rfl
  · exact rfl

/-- The choice once its request is started. -/
def started (choice : Controller.Choice) : Controller.Choice :=
  { choice with req := { choice.req with isFirstCommand := false } }

/-- Where a request is that is not a read or write. -/
theorem Belongs.isAccess_iff {clk : ℤ} {name : Controller.QueueName} {req : Request}
    (h : Belongs k log clk name req) : IsAccess req ↔ name ≠ .otherq := by
  constructor
  · rintro haccess rfl
    exact h.otherq rfl haccess
  · intro hname
    cases name with
    | readq => exact .inl (h.readq rfl)
    | writeq => exact .inr (h.writeq rfl)
    | actq => exact h.actq rfl
    | otherq => exact absurd rfl hname

/-- The request at a place is marked as started. -/
theorem Sound.mark (h : Sound k log v owed c) {choice : Controller.Choice}
    (hchoice : Chosen k c choice) (hfirst : choice.req.isFirstCommand = true)
    {c' : Controller}
    (hc' : c' = c.setQueue choice.name ((c.queue choice.name).set choice.place
      { choice.req with isFirstCommand := false })) :
    (underway (waiting c') c.pending).Perm
        (if IsAccess choice.req then choice.req.addrVec :: underway (waiting c) c.pending
          else underway (waiting c) c.pending) ∧
      ((log.map Arrival.reqid).Perm ((waiting c' ++ answered c).map Request.reqid)) ∧
      (∀ name, ∀ req ∈ c'.queue name, Belongs k log c.clk name req) := by
  have hbelongs := h.queues _ _ (List.mem_of_getElem? hchoice.place)
  subst hc'
  have hqueues := queues_setQueue h.queues choice.name
    ((c.queue choice.name).set choice.place { choice.req with isFirstCommand := false })
    (by
      intro req hreq
      rcases List.mem_or_eq_of_mem_set hreq with hreq | rfl
      · exact h.queues _ req hreq
      · exact hbelongs.of_first false)
  by_cases hname : choice.name = .otherq
  · have haccess : ¬IsAccess choice.req := fun ha => hbelongs.isAccess_iff.mp ha hname
    rw [if_neg haccess]
    rw [hname]
    exact ⟨.refl _, h.booked, hname ▸ hqueues⟩
  · rw [if_pos (hbelongs.isAccess_iff.mpr hname)]
    have hset := waiting_setQueue (c := c) hname
      (set_perm_cons_eraseIdx { choice.req with isFirstCommand := false } hchoice.place)
    have hold := waiting_setQueue (c := c) hname (perm_cons_eraseIdx hchoice.place)
    rw [setQueue_queue] at hold
    refine ⟨?_, ?_, hqueues⟩
    · refine (underway_perm hset).trans ?_
      rw [underway_cons_started rfl]
      refine List.Perm.cons _ ?_
      refine List.Perm.trans ?_ (underway_perm hold).symm
      rw [underway_cons_first hfirst]
    · refine h.booked.trans (((hold.append_right _).map _).trans ?_)
      exact ((hset.append_right _).map Request.reqid).symm

/-- The choice stays one while its request is marked and counted. -/
theorem Chosen.started {choice : Controller.Choice} (h : Chosen k c choice)
    (hfits : FitsChannel k choice.req) (hshows : Shows k.ranks k.banks v c.channel.root)
    {c' : Controller}
    (hqueue : c'.queue choice.name = (c.queue choice.name).set choice.place
      { choice.req with isFirstCommand := false })
    (hmode : c'.writeMode = c.writeMode) (htrace : c'.cmdTrace = c.cmdTrace)
    (hclk : c'.clk = c.clk) (hshows' : Shows k.ranks k.banks v c'.channel.root) :
    Chosen k c' (started choice) where
  place := by
    obtain ⟨hlt, -⟩ := List.getElem?_eq_some_iff.mp h.place
    exact hqueue ▸ List.getElem?_set_self hlt
  served := hmode ▸ h.served
  needs := (decode_congr hfits hshows hshows').trans h.needs
  ready := by
    rw [htrace, hclk]
    exact h.ready

/-- A request is started with its first command: a read or write is counted from then on. -/
theorem Sound.startRequest (h : Sound k log v owed c) (hfresh : Fresh c)
    {choice : Controller.Choice} (hchoice : Chosen k c choice) :
    Succeeds (c.startRequest k choice) fun c' =>
      Sound k log v owed c' ∧ Fresh c' ∧ Chosen k c' (started choice) := by
  have hbelongs := h.queues _ _ (List.mem_of_getElem? hchoice.place)
  unfold Controller.startRequest
  cases hfirst : choice.req.isFirstCommand with
  | false =>
    rw [if_neg Bool.false_ne_true]
    have hsame : Ramulator.started choice = choice := by
      obtain ⟨name, ⟨first, addr, addrVec, reqid, type, arrive, depart⟩, place, cmd⟩ := choice
      obtain rfl : first = false := hfirst
      rfl
    exact ⟨h, hfresh, hsame.symm ▸ hchoice⟩
  | true =>
    rw [if_pos rfl]
    dsimp only
    obtain ⟨r, w, a, o, hsame⟩ := setQueue_same c choice.name
      ((c.queue choice.name).set choice.place { choice.req with isFirstCommand := false })
    have hqueue := queue_setQueue c choice.name choice.name
      ((c.queue choice.name).set choice.place { choice.req with isFirstCommand := false })
    rw [if_pos rfl] at hqueue
    obtain ⟨hunderway, hbooked, hqueues⟩ := h.mark hchoice hfirst rfl
    generalize c.setQueue choice.name ((c.queue choice.name).set choice.place
      { choice.req with isFirstCommand := false }) = c' at hsame hqueue hunderway hbooked hqueues ⊢
    subst hsame
    by_cases haccess : IsAccess choice.req
    · have hadd := h.counts.add c.clk (hbelongs.fits.wellPlaced haccess)
        hbelongs.fits.below (by have := h.clock; omega)
      have htype : choice.req.type = .read ∨ choice.req.type = .write := haccess
      rw [if_pos haccess] at hunderway
      rw [if_pos htype]
      refine (updateServing_succeeds
        (c := { c with readq := r, writeq := w, actq := a, otherq := o }) h.channel hadd).bind ?_
      rintro c'' ⟨root, rfl, hchannel, hcounts⟩
      refine (askRow_succeeds hchannel hbelongs.fits).mono ?_ fun _ he => he
      rintro c'' rfl
      refine ⟨{ h with
        channel := hchannel
        counts := hcounts.perm hunderway.symm
        queues := hqueues
        booked := hbooked }, hfresh, ?_⟩
      exact hchoice.started hbelongs.fits h.channel.shows hqueue rfl rfl rfl hchannel.shows
    · have htype : ¬(choice.req.type = .read ∨ choice.req.type = .write) := haccess
      rw [if_neg haccess] at hunderway
      rw [if_neg htype]
      refine ⟨{ h with
        counts := h.counts.perm hunderway.symm
        queues := hqueues
        booked := hbooked }, hfresh, ?_⟩
      exact hchoice.started hbelongs.fits h.channel.shows hqueue rfl rfl rfl h.channel.shows

end Choosing

end MacSim.Analysis.Ramulator
