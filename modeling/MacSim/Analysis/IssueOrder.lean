import MacSim.Analysis.StoreDeps

/-!
# Issue order

A uop waits in the scheduler for the sources that were recorded when it was fetched.  The
register map of a thread always names the most recent writer of each register, so the
register sources are the right ones; recycled objects are recognised by their number and
thread, so a source is dropped from the wait only when its uop is retired.

Two things break the rest.  `add_src_from_uop` takes a store for a source that is already
there when some source object carries the store's number at that moment, the sentinel and
recycled objects included.  And the record of the last store, which the mode of in-order
stores makes every memory uop wait for, is read but never written.
-/

set_option autoImplicit false

namespace MacSim.Analysis

open MacSim.Model MacSim.Computation

/-! ## The register map -/

/-- The part of the map data that is not the store hash. -/
def forgetHash (d : MapData) : MapData := { d with oracleMemHash := fun _ => none }

/-- What the map data of a thread says of registers and last stores; a thread without map
data is about to be given the initial one. -/
def regView (s : DepCore) (tid : ℤ) : MapData :=
  forgetHash ((s.coreMapData tid).getD MapData.initial)

/-- The map entry of a uop, or of none. -/
def entryOf : Option Fetched → MapEntry
  | some w => ⟨w.uop, w.num⟩
  | none => ⟨invalidUop, 0⟩

/-- The register map as a function of the program: each register has its most recent writer,
no uop is off the path, and no store has ever been recorded as the last one. -/
def regState (log : List Fetched) (tid : ℕ) : MapData :=
  { regMap := fun id off => if off then ⟨invalidUop, 0⟩ else entryOf (producer log tid id)
    mapFlags := fun _ => false
    lastStore := fun _ => ⟨invalidUop, 0⟩
    lastStoreFlag := false
    oracleMemHash := fun _ => none }

/-- In every state of a run the register maps are those of the program. -/
def RegBooks (x : Logged) : Prop := ∀ tid : ℕ, regView x.core tid = regState x.log tid

/-- The registers are seen in the register map only. -/
theorem regView_congr {s s' : DepCore} (h : s'.coreMapData = s.coreMapData) :
    regView s' = regView s := by
  funext tid
  simp [regView, h]

/-- Writing the store hash does not show in the register map. -/
theorem regView_setEntry {s : DepCore} {tid : ℤ} {d : MapData} (hd : s.coreMapData tid = some d)
    (hash : Addr → Option MemMapEntry) :
    regView (s.setMapData tid { d with oracleMemHash := hash }) = regView s := by
  funext t
  by_cases ht : t = tid
  · subst ht
    simp [regView, hd, forgetHash]
  · simp [regView, ht]

/-- The store hash does not change what is seen of the registers. -/
theorem regView_updateStoreHash {k : DepKnobs} {s s' : DepCore} {p : UopPtr}
    (h : s.updateStoreHash k p = some s') : regView s' = regView s := by
  unfold DepCore.updateStoreHash at h
  dsimp only at h
  split at h
  · simp at h
  · next d hd =>
      split at h
      · simp at h
      · obtain rfl := Option.some.inj h
        exact regView_setEntry hd _

/-- A memory dependence does not change what is seen of the registers. -/
theorem regView_mapMemDep {k : DepKnobs} {s s' : DepCore} {p : UopPtr}
    (h : s.mapMemDep k p = some s') : regView s' = regView s := by
  cases hst : (s.heap p).memType.hashedStore with
  | false => exact regView_congr (mapMemDep_coreMapData hst h)
  | true =>
      unfold DepCore.mapMemDep at h
      split at h
      · exact Option.some.inj h ▸ rfl
      · exact regView_updateStoreHash h

/-- Freeing a uop does not change what is seen of the registers. -/
theorem regView_free (k : DepKnobs) (s : DepCore) (p : UopPtr) :
    regView (s.free k p) = regView s := by
  have hdel : ∀ s : DepCore, regView (s.deleteStoreHashEntry k p) = regView s := by
    intro s
    unfold DepCore.deleteStoreHashEntry
    dsimp only
    split
    · rfl
    · split
      · rfl
      · next d hd =>
          split
          · rfl
          · split
            · exact regView_setEntry hd _
            · rfl
  unfold DepCore.free
  dsimp only
  split
  · exact (regView_congr rfl).trans ((hdel _).trans (regView_congr rfl))
  · exact regView_congr rfl

/-- Freeing uops does not change what is seen of the registers. -/
theorem regView_freeAll (k : DepKnobs) (cs : List UopPtr) (s : DepCore) :
    regView (freeAll k s cs) = regView s := by
  induction cs generalizing s with
  | nil => rfl
  | cons c cs ih =>
      have hstep : regView ((s.free k c).releaseEntry c) = regView s :=
        (regView_congr rfl).trans (regView_free k s c)
      exact (ih _).trans hstep

/-- The last producer is the new entry if that writes the register, and the old one otherwise. -/
theorem producer_concat (log : List Fetched) (r : Fetched) (tid id : ℕ) :
    producer (log ++ [r]) tid id =
      if r.tid = tid ∧ id ∈ r.trace.dests then some r else producer log tid id := by
  unfold producer
  rw [lastMatch_concat]
  simp

/-- Retiring a uop marks it wherever it is the producer. -/
theorem producer_retire (log : List Fetched) (p : UopPtr) (tid id : ℕ) :
    producer (log.map (Logged.retireEntry p)) tid id =
      (producer log tid id).map (Logged.retireEntry p) :=
  lastMatch_map (fun r => by simp) log

/-- The register map after a fetch is that of the longer program. -/
theorem regState_concat (log : List Fetched) (r : Fetched) :
    r.trace.dests.foldl (fun d id => d.setReg id false ⟨r.uop, r.num⟩) (regState log r.tid) =
      regState (log ++ [r]) r.tid := by
  rw [foldl_setReg]
  simp only [regState, MapData.mk.injEq, and_true]
  constructor
  · funext id off
    rw [producer_concat]
    by_cases hid : id ∈ r.trace.dests
    · cases off <;> simp [hid, entryOf]
    · cases off <;> simp [hid]
  · funext id
    simp

/-- A fetch leaves the other threads alone. -/
theorem regState_concat_of_ne (log : List Fetched) {r : Fetched} {tid : ℕ} (h : r.tid ≠ tid) :
    regState (log ++ [r]) tid = regState log tid := by
  simp [regState, producer_concat, h]

/-- Retiring a uop keeps what the log says of the registers. -/
theorem regState_retire (log : List Fetched) (p : UopPtr) (tid : ℕ) :
    regState (log.map (Logged.retireEntry p)) tid = regState log tid := by
  have hentry : ∀ w : Option Fetched, entryOf (w.map (Logged.retireEntry p)) = entryOf w := by
    intro w
    cases w <;> simp [entryOf]
  simp [regState, producer_retire, hentry]

/-- The register map after `map_uop`. -/
theorem regView_mapped (k : DepKnobs) (s : DepCore) (p : UopPtr) (t : ℤ) :
    regView (mapped k s p) t =
      if t = (s.heap p).threadId then
        (s.heap p).destInfo.foldl
          (fun d id => d.setReg id (s.heap p).offPath ⟨p, (s.heap p).uopNum⟩) (regView s t)
      else regView s t := by
  by_cases ht : t = (s.heap p).threadId
  · rw [if_pos ht, foldl_setReg, ht]
    simp [regView, mapped, regWrites, foldl_setReg, forgetHash]
  · simp [regView, mapped, ht]

/-- The books are right at the start. -/
theorem RegBooks.start : RegBooks Logged.start := fun _ => by
  simp [regView, Logged.start, DepCore.new, regState, producer, entryOf, MapData.initial,
    forgetHash]

/-- What the memory part of a fetch starts from. -/
theorem fetch_eq {k : DepKnobs} (hdep : k.ignoreDep = false) {x : Logged} {tid : ℕ}
    {t : TraceUop} {s' : DepCore} (hs : x.core.fetch k tid t = some s') :
    ∃ s₂, (fetchedState k x tid t).mapMemDep k (x.core.newUop tid t).1 = some s₂ ∧
      s' = { s₂ with
        inFlight := s₂.inFlight ++ [(x.core.newUop tid t).1]
        waiting := s₂.waiting ++ [(x.core.newUop tid t).1] } := by
  unfold DepCore.fetch at hs
  dsimp only at hs
  obtain ⟨s₂, h₂, rfl⟩ := Option.map_eq_some_iff.mp hs
  unfold DepCore.mapDeps at h₂
  rw [hdep, if_neg (by decide)] at h₂
  obtain ⟨s₁, h₁, h₂⟩ := Option.bind_eq_some_iff.mp h₂
  obtain rfl := mapUop_eq h₁
  exact ⟨s₂, h₂, rfl⟩

/-- Fetching a uop keeps the books right. -/
theorem RegBooks.fetch {k : DepKnobs} (hdep : k.ignoreDep = false) {x : Logged} {tid : ℕ}
    {t : TraceUop} {s' : DepCore} (hb : UopBooks x) (h : RegBooks x)
    (hs : x.core.fetch k tid t = some s') :
    RegBooks ⟨s', x.log ++ [Logged.entry k x tid t]⟩ := by
  obtain ⟨cs, -, hself, -, -, -, hmap, -⟩ := newUop_spec hb.owns tid t
  obtain ⟨s₂, h₂, rfl⟩ := fetch_eq hdep hs
  intro t'
  have hview : regView s₂ = regView (fetchedState k x tid t) := regView_mapMemDep h₂
  have htid := congrArg CoreUop.threadId hself
  have hdests := congrArg CoreUop.destInfo hself
  have hoff := congrArg CoreUop.offPath hself
  have hnum := congrArg CoreUop.uopNum hself
  dsimp only [DepCore.uopOfTrace, CoreUop.init] at htid hdests hoff hnum
  show regView s₂ t' = regState (x.log ++ [Logged.entry k x tid t]) t'
  rw [hview, fetchedState, regView_mapped, htid, hdests, hoff, hnum, regView_congr hmap, h t']
  by_cases ht : t' = tid
  · subst ht
    rw [if_pos rfl]
    exact regState_concat x.log (Logged.entry k x t' t)
  · have hne : (t' : ℤ) ≠ tid := by exact_mod_cast ht
    rw [if_neg hne]
    exact (regState_concat_of_ne x.log (Ne.symm ht)).symm

/-- Each step keeps the books right. -/
theorem RegBooks.step {k : DepKnobs} (hdep : k.ignoreDep = false) {x x' : Logged} {a : DepAct}
    (hb : UopBooks x) (h : RegBooks x) (hs : x.step k a = some x') : RegBooks x' := by
  unfold Logged.step at hs
  obtain ⟨c, hc, rfl⟩ := Option.map_eq_some_iff.mp hs
  have hsame : c.coreMapData = x.core.coreMapData → RegBooks ⟨c, x.log⟩ := fun hcore t =>
    (congrFun (regView_congr hcore) t).trans (h t)
  cases a with
  | fetch tid t => exact h.fetch hdep hb hc
  | advance p =>
      dsimp only [DepCore.step] at hc
      split at hc
      · exact hsame (Option.some.inj hc ▸ advance_coreMapData x.core p)
      · simp at hc
  | schedule p env =>
      dsimp only [DepCore.step] at hc
      split at hc
      · exact hsame (Option.some.inj hc ▸ uopSchedule_coreMapData x.core p env)
      · simp at hc
  | complete p cycle => exact hsame (Option.some.inj hc ▸ rfl)
  | retire p =>
      dsimp only [DepCore.step] at hc
      split at hc
      · obtain rfl := Option.some.inj hc
        intro t
        have hview : regView ({ x.core.freeUopResources k p with
            inFlight := x.core.inFlight.erase p } : DepCore) = regView x.core := by
          refine (regView_congr (s := x.core.freeUopResources k p) rfl).trans ?_
          rw [freeUopResources_eq, regView_freeAll]
        show regView _ t = regState (x.log.map (Logged.retireEntry p)) t
        rw [hview, regState_retire]
        exact h t
      · simp at hc
  | endThread tid =>
      dsimp only [DepCore.step] at hc
      split at hc
      · simp at hc
      · obtain rfl := Option.some.inj hc
        intro t
        show regView _ t = regState (x.log.filter fun r => r.tid ≠ tid) t
        by_cases ht : t = tid
        · subst ht
          have hnone : ∀ id, producer (x.log.filter fun r => r.tid ≠ t) t id = none := by
            intro id
            refine lastMatch_eq_none.mpr fun r hr => ?_
            have hne : r.tid ≠ t := by simpa using (List.mem_filter.mp hr).2
            simp [hne]
          simp only [regState, hnone]
          simp [regView, DepCore.deleteMap, entryOf, MapData.initial, forgetHash]
        · have hne : (t : ℤ) ≠ tid := by exact_mod_cast ht
          have hprod : ∀ id, producer (x.log.filter fun r => r.tid ≠ tid) t id =
              producer x.log t id := by
            intro id
            refine lastMatch_filter (fun r hr => ?_) x.log
            simp only [Bool.and_eq_true, beq_iff_eq] at hr
            simp [hr.1, ht]
          have hold := h t
          simp only [regView, DepCore.deleteMap, Function.update_of_ne hne, regState, hprod]
            at hold ⊢
          exact hold
  | tick => exact hsame (Option.some.inj hc ▸ rfl)

/-- Every run keeps the books right. -/
theorem RegBooks.run {k : DepKnobs} (hdep : k.ignoreDep = false) {acts : List DepAct} {x : Logged}
    (hrun : Logged.start.run k acts = some x) : RegBooks x := by
  have hboth : UopBooks x ∧ RegBooks x :=
    Logged.run_inv (I := fun x => UopBooks x ∧ RegBooks x) ⟨UopBooks.start, RegBooks.start⟩
      (fun _ _ _ h hs => ⟨h.1.step hs, h.2.step hdep h.1 hs⟩) hrun
  exact hboth.2

/-! ## The sources that a fetch records -/

/-- The sources of the registers: the most recent writers. -/
def writerSources (log : List Fetched) (tid : ℕ) (t : TraceUop) : List SrcInfo :=
  t.srcs.map fun id =>
    ⟨.regDataDep, (entryOf (producer log tid id)).uop, (entryOf (producer log tid id)).uopNum⟩

/-- The source for the last store: it is the sentinel, whatever the program. -/
def lastStoreSources (k : DepKnobs) (t : TraceUop) : List SrcInfo :=
  if k.memObeyStoreDep = true ∧ k.memOooStores = false ∧ t.memType ≠ .notMem then
    [⟨.memAddrDep, invalidUop, 0⟩]
  else []

/-- A fetched uop takes its sources from the writers in the log and from the last store. -/
theorem fetchedState_sources {k : DepKnobs} {x : Logged} (hb : UopBooks x) (h : RegBooks x) (tid : ℕ)
    (t : TraceUop) :
    ((fetchedState k x tid t).heap (x.core.newUop tid t).1).mapSrcInfo =
      writerSources x.log tid t ++ lastStoreSources k t := by
  obtain ⟨cs, -, hself, -, -, -, hmap, -⟩ := newUop_spec hb.owns tid t
  have hview := h tid
  have htid := congrArg CoreUop.threadId hself
  have hsrcs := congrArg CoreUop.srcInfo hself
  have htype := congrArg CoreUop.memType hself
  have hnil := congrArg CoreUop.mapSrcInfo hself
  dsimp only [DepCore.uopOfTrace, CoreUop.init] at htid hsrcs htype hnil
  rw [← regView_congr hmap] at hview
  set d := ((x.core.newUop tid t).2.coreMapData tid).getD MapData.initial with hd
  have hreg : ∀ id, d.regMap id (d.mapFlags id) = entryOf (producer x.log tid id) := by
    intro id
    have h₁ := congrArg MapData.regMap hview
    have h₂ := congrArg MapData.mapFlags hview
    have h₁' : d.regMap = (regState x.log tid).regMap := h₁
    have h₂' : d.mapFlags = (regState x.log tid).mapFlags := h₂
    rw [h₁', h₂']
    rfl
  have hlast : d.lastStore d.lastStoreFlag = ⟨invalidUop, 0⟩ := by
    have h₁ := congrArg MapData.lastStore hview
    have h₁' : d.lastStore = (regState x.log tid).lastStore := h₁
    rw [h₁']
    rfl
  have hmapped : ((fetchedState k x tid t).heap (x.core.newUop tid t).1).mapSrcInfo =
      ((x.core.newUop tid t).2.heap (x.core.newUop tid t).1).mapSrcInfo ++
        regSources d ((x.core.newUop tid t).2.heap (x.core.newUop tid t).1) ++
        addrSources k d ((x.core.newUop tid t).2.heap (x.core.newUop tid t).1) := by
    simp [fetchedState, mapped, htid, hd]
  rw [hmapped, hnil, regSources, addrSources, hsrcs, htype, hlast]
  simp [writerSources, lastStoreSources, hreg]

/-- `map_mem_dep` adds sources to the uop and may write the map, and nothing else. -/
theorem mapMemDep_eq {k : DepKnobs} {s s' : DepCore} {p : UopPtr}
    (h : s.mapMemDep k p = some s') :
    ∃ mem data, Added s.heap (s.heap p).mapSrcInfo mem (selectedStores k s p) ∧
      s' = { s with
        heap := Function.update s.heap p
          { s.heap p with mapSrcInfo := (s.heap p).mapSrcInfo ++ mem }
        coreMapData := data } := by
  have hnothing : ∀ stores : List UopPtr, stores = [] →
      ∀ data, s' = { s with coreMapData := data } →
      ∃ mem data, Added s.heap (s.heap p).mapSrcInfo mem stores ∧
        s' = { s with
          heap := Function.update s.heap p
            { s.heap p with mapSrcInfo := (s.heap p).mapSrcInfo ++ mem }
          coreMapData := data } := by
    rintro stores rfl data rfl
    exact ⟨[], data, ⟨by simp, by simp⟩, by simp⟩
  unfold DepCore.mapMemDep at h
  split at h
  · next hk =>
      refine hnothing _ ?_ s.coreMapData (Option.some.inj h).symm
      simp only [Bool.not_eq_true'] at hk
      simp [selectedStores, hk]
  · next hk =>
      split at h
      · next hst =>
          have hld : (s.heap p).memType.hashedLoad = false := by
            revert hst
            cases (s.heap p).memType <;> decide
          have hsel : selectedStores k s p = [] := by simp [selectedStores, hld]
          unfold DepCore.updateStoreHash at h
          dsimp only at h
          split at h
          · simp at h
          · split at h
            · simp at h
            · exact hnothing _ hsel _ (Option.some.inj h).symm
      · split at h
        · next hld =>
            obtain ⟨⟨found, s₁⟩, h₁, rfl⟩ := Option.map_eq_some_iff.mp h
            unfold DepCore.addStoreDeps at h₁
            dsimp only at h₁
            have hobey : k.memObeyStoreDep = true := by simpa using hk
            split at h₁
            · simp at h₁
            · next d hd =>
                split at h₁
                · next he =>
                    obtain ⟨-, rfl⟩ := Prod.mk.inj (Option.some.inj h₁)
                    exact hnothing _ (by simp [selectedStores, hobey, hld, hd, he]) _ rfl
                · next e he =>
                    split at h₁
                    · simp at h₁
                    · next stores found' hdeps =>
                        obtain ⟨heap, hheap, hpair⟩ := Option.map_eq_some_iff.mp h₁
                        obtain ⟨-, rfl⟩ := Prod.mk.inj hpair
                        have hsel : selectedStores k s p = stores := by
                          simp [selectedStores, hobey, hld, hd, he, hdeps]
                        obtain ⟨mem, hadd, rfl⟩ := foldlM_addSrcFromUop _ hheap
                        exact ⟨mem, s.coreMapData, hsel ▸ hadd, rfl⟩
        · next hld =>
            refine hnothing _ ?_ s.coreMapData (Option.some.inj h).symm
            simp [selectedStores, hld]

/-! ## The mode of in-order stores -/

/-- The last store of a thread. -/
def lastStoreOf (log : List Fetched) (tid : ℕ) : Option Fetched :=
  lastMatch (fun r => r.tid == tid && r.trace.memType.isStore) log

/-- Some source is an address dependence on the last store of the thread, or on the sentinel
if the thread has no store. -/
def NamesLastStore (log : List Fetched) (tid : ℕ) (srcs : List SrcInfo) : Prop :=
  ∃ info ∈ srcs, info.type = .memAddrDep ∧
    (⟨info.uop, info.uopNum⟩ : MapEntry) = entryOf (lastStoreOf log tid)

/-- With in-order stores, a memory uop is made dependent on the last store of its thread if
and only if there is none. -/
theorem in_order_store_source_iff {k : DepKnobs} (hdep : k.ignoreDep = false)
    (hobey : k.memObeyStoreDep = true) (hooo : k.memOooStores = false) {acts : List DepAct}
    {x x' : Logged} (hrun : Logged.start.run k acts = some x) {tid : ℕ} {t : TraceUop}
    (hmem : t.memType ≠ .notMem) (hs : x.step k (.fetch tid t) = some x') :
    NamesLastStore x.log tid (x'.core.heap (x.core.newUop tid t).1).mapSrcInfo ↔
      ∀ r ∈ x.log, r.tid = tid → r.trace.memType.isStore = false := by
  have hb := UopBooks.run hrun
  have hr := RegBooks.run hdep hrun
  unfold Logged.step at hs
  obtain ⟨c, hc, rfl⟩ := Option.map_eq_some_iff.mp hs
  obtain ⟨s₂, h₂, rfl⟩ := fetch_eq hdep hc
  obtain ⟨mem, data, hadd, hs₂⟩ := mapMemDep_eq h₂
  have hsrcs : (s₂.heap (x.core.newUop tid t).1).mapSrcInfo =
      writerSources x.log tid t ++ [⟨.memAddrDep, invalidUop, 0⟩] ++ mem := by
    rw [hs₂]
    simp only [Function.update_self]
    rw [fetchedState_sources hb hr, lastStoreSources, if_pos ⟨hobey, hooo, hmem⟩]
  have hnone : lastStoreOf x.log tid = none ↔
      ∀ r ∈ x.log, r.tid = tid → r.trace.memType.isStore = false := by
    rw [lastStoreOf, lastMatch_eq_none]
    simp
  rw [← hnone]
  show NamesLastStore x.log tid (s₂.heap (x.core.newUop tid t).1).mapSrcInfo ↔ _
  rw [hsrcs]
  constructor
  · rintro ⟨info, hinfo, htype, hentry⟩
    -- the only address dependence is the sentinel, which no fetched uop is given
    obtain rfl : info = ⟨.memAddrDep, invalidUop, 0⟩ := by
      rcases List.mem_append.mp hinfo with hinfo | hinfo
      · rcases List.mem_append.mp hinfo with hinfo | hinfo
        · obtain ⟨id, -, rfl⟩ := List.mem_map.mp hinfo
          simp at htype
        · exact List.mem_singleton.mp hinfo
      · obtain ⟨q, -, rfl, -⟩ := hadd.new info hinfo
        simp at htype
    cases hlast : lastStoreOf x.log tid with
    | none => rfl
    | some y =>
        rw [hlast] at hentry
        exact absurd (congrArg MapEntry.uop hentry).symm (hb.object y (lastMatch_mem hlast).1)
  · intro hlast
    refine ⟨⟨.memAddrDep, invalidUop, 0⟩, by simp, rfl, ?_⟩
    rw [hlast]
    rfl

/-- The knobs of the mode of in-order stores. -/
def inOrderKnobs : DepKnobs := { defaultMapKnobs with memOooStores := false }

/-- A thread's first store, after one of its loads and a store of another thread. -/
theorem in_order_store_source_iff_own_first :
    ∃ x x', Logged.start.run inOrderKnobs
        [.fetch 0 (memTrace .ld 64 8), .fetch 1 (memTrace .st 0 8)] = some x ∧
      x.step inOrderKnobs (.fetch 0 (memTrace .st 0 8)) = some x' ∧
      NamesLastStore x.log 0 (x'.core.heap (x.core.newUop 0 (memTrace .st 0 8)).1).mapSrcInfo := by
  obtain ⟨x, hrun, hlog⟩ : ∃ x, Logged.start.run inOrderKnobs
      [.fetch 0 (memTrace .ld 64 8), .fetch 1 (memTrace .st 0 8)] = some x ∧
      x.log.map (fun r => (r.tid, r.trace.memType.isStore)) = [(0, false), (1, true)] :=
    ⟨_, rfl, by decide⟩
  obtain ⟨x', hs⟩ : ∃ x', x.step inOrderKnobs (.fetch 0 (memTrace .st 0 8)) = some x' := by
    cases hrun
    exact ⟨_, rfl⟩
  refine ⟨x, x', hrun, hs, (in_order_store_source_iff rfl rfl rfl hrun (by decide) hs).mpr ?_⟩
  intro r hr htid
  have hmem := List.mem_map_of_mem (f := fun r : Fetched => (r.tid, r.trace.memType.isStore)) hr
  rw [hlog, htid] at hmem
  simpa using hmem

/-- Nothing holds a uop back. -/
def freeEnv : SchedEnv :=
  { simdUnitBusy := false, portAvailable := true, fenceActive := false, execOk := true,
    latency := some 1, execRetireLatency := 1 }

/-- A load that follows a store is not made dependent on it, and issues before the store is
done.  The store is in object `1`, the load in object `2`. -/
theorem in_order_store_source_missing :
    (∃ x x', Logged.start.run inOrderKnobs [.fetch 0 (memTrace .st 0 8)] = some x ∧
      x.step inOrderKnobs (.fetch 0 (memTrace .ld 64 8)) = some x' ∧
      ¬ NamesLastStore x.log 0 (x'.core.heap 2).mapSrcInfo) ∧
    ∃ x, Logged.start.run inOrderKnobs
        [.fetch 0 (memTrace .st 0 8), .fetch 0 (memTrace .ld 64 8), .advance 2] = some x ∧
      (x.core.uopSchedule 2 freeEnv).1 = .success ∧ (x.core.heap 1).doneCycle = 0 := by
  refine ⟨⟨_, _, rfl, rfl, ?_⟩, _, rfl, rfl, rfl⟩
  rintro ⟨info, hinfo, -, hentry⟩
  obtain rfl := List.mem_singleton.mp hinfo
  exact absurd hentry (by decide)

end MacSim.Analysis
