import MacSim.Analysis.CacheSteps
import MacSim.Model.Constructed
import MacSim.Model.DcuCycle

/-!
# The write-back of a dirty victim

`process_fill_queue` and `done` insert the line of a request in the same way: they get the base
address of the line that was replaced, and write it back if the address is not zero and the data
are dirty.  Zero stands for an invalid way, and it is the address of a line as well.
-/

set_option autoImplicit false

namespace MacSim.Analysis

open MacSim.Model

/-- The request `r` has come to the insertion of its line into the cache of `d`: the cache is
enabled and does not have the line, a write port is granted, and the write-back queue has
room. -/
structure Inserting (cfg : MemConfig) (s : Mem) (d : DcuId) (r : ReqId)
    (cache : Cache DcacheData) : Prop where
  enabled : (cfg.flags d).disable = false
  present : (s.dcu d).cache = some cache
  miss : (cache.accessCache s.simCycle (s.req r).addr false).1 = none
  port : ∃ t, s.getWritePort d (cache.param.getBankNum (s.req r).addr) (s.dcu d).cycle =
    some (t, true)
  room : s.full ⟨d, .wbQueue⟩ = false

/-- The line of the way that the insertion replaces. -/
def replacedLine (cfg : MemConfig) (s : Mem) (r : ReqId) (cache : Cache DcacheData) :
    Option (CacheEntry DcacheData) :=
  (cache.victimWay cfg.cacheKnobs (cache.param.findTagAndSet (s.req r).addr).2
    (s.req r).acc).bind fun x => x.2.entry[x.1]?

/-- A dirty line was replaced. -/
def DirtyVictim (line : CacheEntry DcacheData) : Prop :=
  line.valid = true ∧ line.data.dirty = true

/-- A dirty victim has one new request in the write-back queue, a write-back of its base
address; another one has none. -/
structure WrittenBack (s s' : Mem) (d : DcuId) (line : CacheEntry DcacheData) : Prop where
  dirty : DirtyVictim line → s'.nextWb = s.nextWb + 1 ∧
    (s'.req (.wb s.nextWb)).type = .wb ∧ (s'.req (.wb s.nextWb)).addr = line.base ∧
    (s'.entries ⟨d, .wbQueue⟩).Perm (s.entries ⟨d, .wbQueue⟩ ++ [.wb s.nextWb])
  clean : ¬ DirtyVictim line → s'.nextWb = s.nextWb ∧
    s'.entries ⟨d, .wbQueue⟩ = s.entries ⟨d, .wbQueue⟩

/-- Two states with the same requests and the same write-back queue. -/
structure SameWbs (d : DcuId) (s t : Mem) : Prop where
  nextWb : t.nextWb = s.nextWb
  req : t.req = s.req
  queue : t.entries ⟨d, .wbQueue⟩ = s.entries ⟨d, .wbQueue⟩

/-- Steps that keep the write-backs may follow. -/
theorem WrittenBack.after {s s' t : Mem} {d : DcuId} {line : CacheEntry DcacheData}
    (h : SameWbs d s' t) : WrittenBack s t d line ↔ WrittenBack s s' d line := by
  constructor
  · rintro ⟨hdirty, hclean⟩
    rw [h.nextWb, h.req, h.queue] at hdirty
    rw [h.nextWb, h.queue] at hclean
    exact ⟨hdirty, hclean⟩
  · rintro ⟨hdirty, hclean⟩
    refine ⟨?_, ?_⟩
    · rw [h.nextWb, h.req, h.queue]
      exact hdirty
    · rw [h.nextWb, h.queue]
      exact hclean

/-- Steps that keep the write-backs may come first. -/
theorem WrittenBack.before {s s' t : Mem} {d : DcuId} {line : CacheEntry DcacheData}
    (h : SameWbs d s t) : WrittenBack t s' d line ↔ WrittenBack s s' d line := by
  constructor
  · rintro ⟨hdirty, hclean⟩
    rw [h.nextWb, h.queue] at hdirty hclean
    exact ⟨hdirty, hclean⟩
  · rintro ⟨hdirty, hclean⟩
    refine ⟨?_, ?_⟩
    · rw [h.nextWb, h.queue]
      exact hdirty
    · rw [h.nextWb, h.queue]
      exact hclean

/-- A push into a queue with room. -/
theorem push_room (cfg : MemConfig) {s : Mem} {q : QueueId} (hroom : s.full q = false)
    (r : ReqId) : ∃ s', s.push cfg q r = (s', true) ∧ s'.nextWb = s.nextWb ∧
      (∀ x, (s'.req x).type = (s.req x).type ∧ (s'.req x).addr = (s.req x).addr) ∧
      (s'.entries q).Perm (s.entries q ++ [r]) := by
  unfold Mem.push
  rw [if_neg (by rw [hroom]; exact Bool.false_ne_true)]
  refine ⟨_, rfl, rfl, fun x => ?_, ?_⟩
  · by_cases hx : x = r
    · subst hx
      simp [Mem.setEntries, Mem.modDcu, Mem.modReq]
    · simp [Mem.setEntries, Mem.modDcu, Mem.modReq, hx]
  · have hentries : ∀ (u : Mem) (l : List ReqId), (u.setEntries q l).entries q = l := fun u l => by
      simp [Mem.setEntries, Mem.modDcu, Mem.entries]
    rw [hentries]
    exact List.perm_insertionSort _ _

/-- The eviction of a line pushes one write-back of the address. -/
theorem evict_spec (cfg : MemConfig) {s : Mem} {d : DcuId} (hroom : s.full ⟨d, .wbQueue⟩ = false)
    (r : ReqId) (victim : Addr) (data : DcacheData) : ∃ s', s.evict cfg d r victim data = some s' ∧
      s'.nextWb = s.nextWb + 1 ∧ (s'.req (.wb s.nextWb)).type = .wb ∧
      (s'.req (.wb s.nextWb)).addr = victim ∧
      (s'.entries ⟨d, .wbQueue⟩).Perm (s.entries ⟨d, .wbQueue⟩ ++ [.wb s.nextWb]) := by
  unfold Mem.evict Mem.evictOr
  dsimp only
  generalize (if cfg.knobs.useIncomingTidCidForWb = true then
    { data with coreId := (s.req r).coreId, tid := (s.req r).threadId } else data) = data
  set t := (s.newWbReq cfg victim (cfg.param d).lineSize (cfg.param d).accSim data).1.modReq
    (s.newWbReq cfg victim (cfg.param d).lineSize (cfg.param d).accSim data).2
    (fun wb => { wb with rdyCycle := (s.dcu d).cycle + 1 }) with ht
  have hroom' : t.full ⟨d, .wbQueue⟩ = false := hroom
  obtain ⟨s', hpush, hnext, hsame, hperm⟩ := push_room cfg hroom' (.wb s.nextWb)
  have hid : (s.newWbReq cfg victim (cfg.param d).lineSize (cfg.param d).accSim data).2 =
      .wb s.nextWb := rfl
  obtain ⟨htype, haddr⟩ := hsame (.wb s.nextWb)
  refine ⟨s', by rw [hid, hpush]; rfl, hnext, htype.trans ?_, haddr.trans ?_, hperm⟩
  · simp [ht, Mem.modReq, Mem.newWbReq]
  · simp [ht, Mem.modReq, Mem.newWbReq]

/-- The insertion of a line: the victim is written back exactly if it is clean or not at
address zero. -/
theorem insertLine_writtenBack {cfg : MemConfig} {s : Mem} {d : DcuId} {r : ReqId}
    {cache : Cache DcacheData} {line : CacheEntry DcacheData}
    (hroom : s.full ⟨d, .wbQueue⟩ = false) (hline : replacedLine cfg s r cache = some line) :
    ∃ s', s.insertLine cfg d cache r = some s' ∧
      (WrittenBack s s' d line ↔ (DirtyVictim line → line.base ≠ 0)) := by
  obtain ⟨⟨w, set⟩, hway, hget⟩ := Option.bind_eq_some_iff.mp hline
  obtain ⟨victim, c', hins⟩ := insertCache_some s.simCycle (s.req r).applId
    hway hget
  obtain ⟨set', line', -, hway', hget', hvictim, -, hentry⟩ := insertCache_ways hins
  obtain rfl : set = set' := congrArg Prod.snd (Option.some.inj (hway.symm.trans hway'))
  cases hget.symm.trans hget'
  have hdata : c'.data? ⟨(cache.param.findTagAndSet (s.req r).addr).2, w⟩ = some line.data := by
    unfold Cache.data?
    rw [hentry, if_pos rfl, List.getElem?_modify_eq, hget]
    rfl
  unfold Mem.insertLine Mem.insertLineOr
  dsimp only
  rw [hins, Option.bind_some, hdata, Option.bind_some]
  split
  · next hdirty =>
    obtain ⟨hne, hd⟩ := hdirty
    have hvalid : line.valid = true := by
      by_contra hv
      rw [if_neg hv] at hvictim
      exact hne hvictim
    rw [if_pos hvalid] at hvictim
    obtain ⟨t, ht, hnext, htype, haddr, hperm⟩ :=
      evict_spec cfg hroom r victim line.data
    unfold Mem.evict at ht
    rw [ht]
    refine ⟨_, rfl, iff_of_true ⟨fun _ => ⟨hnext, htype, haddr.trans hvictim, ?_⟩,
      fun hclean => absurd ⟨hvalid, hd⟩ hclean⟩ fun _ => by rw [← hvictim]; exact hne⟩
    simpa [Mem.setCache, Mem.modDcu, Mem.entries] using hperm
  · next hclean =>
    refine ⟨_, rfl, ?_⟩
    have hentries : ((s.setCache d (c'.modifyData
        ⟨(cache.param.findTagAndSet (s.req r).addr).2, w⟩ fun _ =>
          { dirty := (s.req r).dirty, fetchCycle := (s.dcu d).cycle, coreId := (s.req r).coreId,
            pc := (s.req r).pc, tid := (s.req r).threadId })).entries ⟨d, .wbQueue⟩) =
        s.entries ⟨d, .wbQueue⟩ := by
      simp [Mem.setCache, Mem.modDcu, Mem.entries]
    constructor
    · rintro ⟨hdirty, -⟩ hvictim'
      have := (hdirty hvictim').1
      exact absurd this (Nat.ne_of_lt (Nat.lt_succ_self _))
    · intro hbase
      refine ⟨fun hvictim' => ?_, fun _ => ⟨rfl, hentries⟩⟩
      rw [if_pos hvictim'.1] at hvictim
      exact absurd ⟨hvictim ▸ hbase hvictim', hvictim'.2⟩ hclean

/-! ## The two insertion sites -/

/-- A write port is in no write-back. -/
theorem getWritePort_wbs {s t : Mem} {d : DcuId} {bank : ℕ} {cycle : Counter} {b : Bool}
    (h : s.getWritePort d bank cycle = some (t, b)) :
    SameWbs d s t ∧ t.simCycle = s.simCycle := by
  obtain ⟨p, -, heq⟩ := Option.map_eq_some_iff.mp h
  obtain ⟨rfl, -⟩ := Prod.mk.inj heq
  exact ⟨⟨rfl, rfl, by simp [Mem.modDcu, Mem.entries]⟩, rfl⟩

/-- The completion of a uop touches no write-back. -/
theorem completeUop_wbs (s : Mem) (d : DcuId) (u : ℕ) (b : Bool) :
    SameWbs d s (s.completeUop u b) := by
  unfold Mem.completeUop
  dsimp only
  split
  · split
    · exact ⟨rfl, rfl, rfl⟩
    · split
      · exact ⟨rfl, rfl, rfl⟩
      · exact ⟨rfl, rfl, rfl⟩
  · exact ⟨rfl, rfl, rfl⟩

/-- The effect of a completion touches no write-back. -/
theorem doneEffect_wbs (cfg : MemConfig) (d e : DcuId) (r : ReqId) (s : Mem) :
    SameWbs d s (Mem.doneEffect cfg e r s) := by
  have hlog : ∀ u : Mem, ∀ x : Event, SameWbs d u (u.record x) := fun u x => ⟨rfl, rfl, rfl⟩
  unfold Mem.doneEffect
  dsimp only
  generalize hs : (if (s.req r).type = MemReqType.dstore ∧ (s.req r).acc = false then
    s.record (.storeDone r (s.dirtyOnPath cfg r)) else s) = s₁
  have hfirst : SameWbs d s s₁ := by
    rw [← hs]
    split
    · exact hlog _ _
    · exact ⟨rfl, rfl, rfl⟩
  split
  · exact hfirst
  · have hsecond := completeUop_wbs s₁ d
    exact ⟨((hsecond _ _).nextWb).trans hfirst.nextWb, ((hsecond _ _).req).trans hfirst.req,
      ((hsecond _ _).queue).trans hfirst.queue⟩

/-- At both insertion sites the write-back of the replaced line is as it should be exactly if
the line is not a dirty one at address zero. -/
theorem dirty_eviction_written_back_iff (cfg : MemConfig) (s : Mem) (d : DcuId) (r : ReqId)
    (cache : Cache DcacheData) (line : CacheEntry DcacheData)
    (hins : Inserting cfg s d r cache) (hline : replacedLine cfg s r cache = some line) :
    (∃ s', Mem.fillAccess cfg d r s = some (s', true) ∧
      (WrittenBack s s' d line ↔ (DirtyVictim line → line.base ≠ 0))) ∧
    (∃ s', s.dcuDone cfg d r = some (s', true) ∧
      (WrittenBack s s' d line ↔ (DirtyVictim line → line.base ≠ 0))) := by
  obtain ⟨t, hport⟩ := hins.port
  obtain ⟨hwbs, hcycle⟩ := getWritePort_wbs hport
  have hroom : t.full ⟨d, .wbQueue⟩ = false := by
    unfold Mem.full
    rw [hwbs.queue]
    exact hins.room
  have hline' : replacedLine cfg t r cache = some line := by
    unfold replacedLine
    rw [hwbs.req]
    exact hline
  obtain ⟨s', hs', hiff⟩ := insertLine_writtenBack (d := d) hroom hline'
  rw [WrittenBack.before hwbs] at hiff
  have hmiss := hins.miss
  generalize hx : cache.accessCache s.simCycle (s.req r).addr false = x at hmiss
  obtain ⟨res, cache'⟩ := x
  obtain rfl : res = none := hmiss
  obtain ⟨rfl, -⟩ := accessCache_miss hx
  unfold Mem.insertLine at hs'
  constructor
  · refine ⟨s', ?_, hiff⟩
    unfold Mem.fillAccess Mem.fillAccessOr
    rw [if_neg (by rw [hins.enabled]; exact Bool.false_ne_true), hins.present, Option.bind_some, hx]
    dsimp only
    rw [hport, Option.bind_some, if_pos rfl, hs']
    rfl
  · refine ⟨Mem.doneEffect cfg d r s', ?_, ?_⟩
    · unfold Mem.dcuDone Mem.dcuDoneOr
      rw [if_neg (by rw [hins.room]; exact Bool.false_ne_true),
        if_neg (by rw [hins.enabled]; exact Bool.false_ne_true), hins.present, Option.bind_some,
        hport, Option.bind_some]
      dsimp only
      rw [if_pos rfl, hwbs.req, hcycle, hx]
      dsimp only
      rw [hs']
      rfl
    · rw [WrittenBack.after (doneEffect_wbs cfg d d r s'), hiff]

/-- A cache of one line with the dirty line of an address. -/
def dirtyCache (a : Addr) : Cache DcacheData :=
  match (Cache.new Mem.oneLine fun _ => (0, 0)).insertCache ⟨false, false, 0⟩ 1 a 0 false with
  | some (l, _, c) => c.modifyData l fun x => { x with dirty := true }
  | none => Cache.new Mem.oneLine fun _ => (0, 0)

/-- The smallest machine after a store has made the line of an address dirty in its L1 cache,
with a request for line 192 on its way up. -/
def dirtyL1 (a : Addr) : Mem :=
  ((Mem.small .llcDecoupledNetwork 1 []).setCache ⟨.l1, 0⟩ (dirtyCache a)).modReq (.mshr 0 0)
    fun req => { req with addr := 192 }

/-- The dirty line 64 is evicted. -/
theorem dirty_eviction_written_back_iff_line : ∃ line,
    replacedLine (Mem.smallConfig .llcDecoupledNetwork 1) (dirtyL1 64) (.mshr 0 0)
      (dirtyCache 64) = some line ∧
    (∃ s', Mem.fillAccess (Mem.smallConfig .llcDecoupledNetwork 1) ⟨.l1, 0⟩ (.mshr 0 0)
        (dirtyL1 64) = some (s', true) ∧
      (WrittenBack (dirtyL1 64) s' ⟨.l1, 0⟩ line ↔ (DirtyVictim line → line.base ≠ 0))) ∧
    (∃ s', (dirtyL1 64).dcuDone (Mem.smallConfig .llcDecoupledNetwork 1) ⟨.l1, 0⟩ (.mshr 0 0) =
        some (s', true) ∧
      (WrittenBack (dirtyL1 64) s' ⟨.l1, 0⟩ line ↔ (DirtyVictim line → line.base ≠ 0))) := by
  have hline : replacedLine (Mem.smallConfig .llcDecoupledNetwork 1) (dirtyL1 64) (.mshr 0 0)
      (dirtyCache 64) = some _ := rfl
  exact ⟨_, hline, dirty_eviction_written_back_iff _ _ _ _ _ _ ⟨rfl, rfl, rfl, ⟨_, rfl⟩, rfl⟩ hline⟩

/-- The dirty line 0 is evicted without a write-back. -/
theorem dirty_line_zero_lost : ∃ line s',
    Inserting (Mem.smallConfig .llcDecoupledNetwork 1) (dirtyL1 0) ⟨.l1, 0⟩ (.mshr 0 0)
      (dirtyCache 0) ∧
    replacedLine (Mem.smallConfig .llcDecoupledNetwork 1) (dirtyL1 0) (.mshr 0 0)
      (dirtyCache 0) = some line ∧
    (dirtyL1 0).dcuDone (Mem.smallConfig .llcDecoupledNetwork 1) ⟨.l1, 0⟩ (.mshr 0 0) =
      some (s', true) ∧
    DirtyVictim line ∧ s'.nextWb = 0 ∧ s'.entries ⟨⟨.l1, 0⟩, .wbQueue⟩ = [] :=
  ⟨_, _, ⟨rfl, rfl, rfl, ⟨_, rfl⟩, rfl⟩, rfl, rfl, ⟨rfl, rfl⟩, rfl, rfl⟩

end MacSim.Analysis
