import MacSim.Analysis.DirtyEviction

/-!
# The write-back queue has room for a victim

Each insertion of a line makes at most one write-back, and each is preceded by a test for room
with no push in between: the loop over the fill queue tests before a request is looked at, whose
first push is that of its own insertion, and `done` tests when it is called, at whatever depth of
the merge lists.  So the assertions on the push are never reached, whatever stands in their
place.
-/

set_option autoImplicit false

namespace MacSim.Analysis

open MacSim.Model

variable {overflow : Mem → Option Mem} {cfg : MemConfig}

/-- With room in the queue the write-back of a victim is taken. -/
theorem evictOr_eq {s : Mem} {d : DcuId} (hroom : s.full ⟨d, .wbQueue⟩ = false) (r : ReqId)
    (victim : Addr) (data : DcacheData) :
    s.evictOr overflow cfg d r victim data = s.evictOr Mem.assertionFails cfg d r victim data := by
  unfold Mem.evictOr
  dsimp only
  generalize (if cfg.knobs.useIncomingTidCidForWb = true then
    { data with coreId := (s.req r).coreId, tid := (s.req r).threadId } else data) = data
  set t := (s.newWbReq cfg victim (cfg.param d).lineSize (cfg.param d).accSim data).1.modReq
    (s.newWbReq cfg victim (cfg.param d).lineSize (cfg.param d).accSim data).2
    (fun wb => { wb with rdyCycle := (s.dcu d).cycle + 1 })
  have hroom' : t.full ⟨d, .wbQueue⟩ = false := hroom
  obtain ⟨s', hpush, -⟩ := push_room cfg hroom'
    (s.newWbReq cfg victim (cfg.param d).lineSize (cfg.param d).accSim data).2
  rw [hpush]
  rfl

/-- With room in the queue a line is inserted without a look at the assertion. -/
theorem insertLineOr_eq {s : Mem} {d : DcuId} (hroom : s.full ⟨d, .wbQueue⟩ = false)
    (cache : Cache DcacheData) (r : ReqId) :
    s.insertLineOr overflow cfg d cache r = s.insertLineOr Mem.assertionFails cfg d cache r := by
  unfold Mem.insertLineOr
  dsimp only
  refine Option.bind_congr fun p _ => Option.bind_congr fun data _ => ?_
  rw [evictOr_eq hroom]

/-- A write port is not in the write-back queue. -/
theorem full_getWritePort {s t : Mem} {d : DcuId} {bank : ℕ} {cycle : Counter} {b : Bool}
    (h : s.getWritePort d bank cycle = some (t, b)) :
    t.full ⟨d, .wbQueue⟩ = s.full ⟨d, .wbQueue⟩ := by
  unfold Mem.full
  rw [(getWritePort_wbs h).1.queue]

/-- `done` tests for room before it inserts. -/
theorem dcuDoneOr_eq (s : Mem) (d : DcuId) (r : ReqId) :
    s.dcuDoneOr overflow cfg d r = s.dcuDoneOr Mem.assertionFails cfg d r := by
  unfold Mem.dcuDoneOr
  split
  · rfl
  · next hfull =>
    rw [Bool.not_eq_true] at hfull
    split
    · rfl
    · refine Option.bind_congr fun cache _ => Option.bind_congr fun p hp => ?_
      have hroom : p.1.full ⟨d, .wbQueue⟩ = false := (full_getWritePort hp).trans hfull
      split
      · obtain ⟨res, c⟩ := cache.accessCache p.1.simCycle (p.1.req r).addr false
        cases res with
        | none =>
            dsimp only
            rw [insertLineOr_eq hroom]
        | some l => rfl
      · rfl

/-- The completion functions push through `done` only, at every depth. -/
theorem wrapperOr_eq : Mem.wrapperOr overflow cfg = Mem.wrapperOr Mem.assertionFails cfg := by
  funext fuel
  induction fuel with
  | zero => rfl
  | succ fuel ih =>
      funext f r s
      unfold Mem.wrapperOr
      rw [ih]
      cases f with
      | dcacheFillLine =>
          refine Option.bind_congr fun p _ => ?_
          unfold Mem.doneOr
          rw [dcuDoneOr_eq]
      | icacheFillLine => rfl
      | readonlyCacheFillLine => rfl
      | dcacheWriteAck => rfl

/-- The insertion of a request in the fill queue comes before its completion. -/
theorem fillBodyOr_eq {s : Mem} {d : DcuId} (hroom : s.full ⟨d, .wbQueue⟩ = false) (r : ReqId) :
    Mem.fillBodyOr overflow cfg d r s = Mem.fillBodyOr Mem.assertionFails cfg d r s := by
  have haccess : Mem.fillAccessOr overflow cfg d r s =
      Mem.fillAccessOr Mem.assertionFails cfg d r s := by
    unfold Mem.fillAccessOr
    split
    · rfl
    · refine Option.bind_congr fun cache _ => ?_
      obtain ⟨res, c⟩ := cache.accessCache s.simCycle (s.req r).addr false
      cases res with
      | none =>
          refine Option.bind_congr fun p hp => ?_
          rw [insertLineOr_eq ((full_getWritePort hp).trans hroom)]
      | some l => rfl
  have hwrapper : Mem.wrapperOr overflow cfg = Mem.wrapperOr Mem.assertionFails cfg :=
    wrapperOr_eq
  have hnew (t : Mem) : Mem.fillNewOr overflow cfg d r t =
      Mem.fillNewOr Mem.assertionFails cfg d r t := by
    unfold Mem.fillNewOr
    rw [hwrapper]
  unfold Mem.fillBodyOr
  rw [hwrapper, haccess]
  simp only [hnew]

/-- A loop runs its body only where it does not stop. -/
theorem serveLoop_congr {stop : Mem → Bool} {body body' : ReqId → Mem → Option (Mem × Bool)}
    (h : ∀ r s, stop s = false → body r s = body' r s) (rest : List ReqId) (s : Mem)
    (doneList : List ReqId) :
    Mem.serveLoop stop body rest s doneList = Mem.serveLoop stop body' rest s doneList := by
  induction rest generalizing s doneList with
  | nil => rfl
  | cons r rest ih =>
      unfold Mem.serveLoop
      split
      · rfl
      · next hgo =>
        push Not at hgo
        rw [h r s (Bool.not_eq_true _ ▸ hgo.2)]
        exact Option.bind_congr fun p _ => ih _ _

/-- The assertions that the write-back queue takes a victim are never reached: a run of
`process_fill_queue`, with all completion functions that it calls, and a call of `done` are the
same with anything else in their place. -/
theorem wb_queue_has_room (overflow : Mem → Option Mem) (cfg : MemConfig) (d : DcuId) (s : Mem) :
    Mem.processFillQueueOr overflow cfg d s = Mem.processFillQueue cfg d s ∧
      ∀ r, s.dcuDoneOr overflow cfg d r = s.dcuDone cfg d r := by
  refine ⟨?_, fun r => dcuDoneOr_eq s d r⟩
  have hretire : Mem.retireServedOr overflow cfg ⟨d, .fillQueue⟩ =
      Mem.retireServedOr Mem.assertionFails cfg ⟨d, .fillQueue⟩ := by
    funext t r
    have hwrapper : Mem.wrapperOr overflow cfg = Mem.wrapperOr Mem.assertionFails cfg :=
      wrapperOr_eq
    unfold Mem.retireServedOr
    rw [hwrapper]
  unfold Mem.processFillQueue Mem.processFillQueueOr Mem.serve
  rw [hretire, serveLoop_congr fun r t hroom => fillBodyOr_eq hroom r]

end MacSim.Analysis
