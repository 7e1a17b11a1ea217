import MacSim.Model.CoreIssue
import MacSim.Computation.LastMatch
import MacSim.Computation.Partial

/-!
# The books of the uops of a core

A run of `DepCore` is read together with the list of the uops it has fetched, in program
order.  A `Fetched` entry is the identity of a uop: the object it was given, its thread, its
number and what the trace said of it.  Objects are recycled, identities are not.

`UopBooks` is what every run keeps: the objects of the uops in flight and of their children are
apart from each other and from the pool, and each of them still carries what it was fetched
with.  The dependence analyses take it from here.
-/

set_option autoImplicit false

namespace MacSim.Analysis

open MacSim.Model MacSim.Computation

/-! ## What the map functions do -/

/-- The sources that `read_reg_map` records. -/
def regSources (d : MapData) (uop : CoreUop) : List SrcInfo :=
  uop.srcInfo.map fun id =>
    ⟨.regDataDep, (d.regMap id (d.mapFlags id)).uop, (d.regMap id (d.mapFlags id)).uopNum⟩

/-- The source that `read_store_map` records. -/
def addrSources (k : DepKnobs) (d : MapData) (uop : CoreUop) : List SrcInfo :=
  if k.memObeyStoreDep = true ∧ k.memOooStores = false ∧ uop.memType ≠ .notMem then
    [⟨.memAddrDep, (d.lastStore d.lastStoreFlag).uop, (d.lastStore d.lastStoreFlag).uopNum⟩]
  else []

/-- The map after all destinations of a uop are written. -/
def regWrites (d : MapData) (p : UopPtr) (uop : CoreUop) : MapData :=
  uop.destInfo.foldl (fun d id => d.setReg id uop.offPath ⟨p, uop.uopNum⟩) d

/-- Writing the destinations of a uop, as one write. -/
theorem foldl_setReg (off : Bool) (e : MapEntry) (ids : List ℕ) (d : MapData) :
    ids.foldl (fun d id => d.setReg id off e) d =
      { d with
        regMap := fun id o => if id ∈ ids ∧ o = off then e else d.regMap id o
        mapFlags := fun id => if id ∈ ids then off else d.mapFlags id } := by
  induction ids generalizing d with
  | nil => simp
  | cons i ids ih =>
      rw [List.foldl_cons, ih]
      simp only [MapData.setReg, MapData.mk.injEq, and_true]
      constructor
      · funext id o
        by_cases hi : id = i
        · subst hi
          by_cases ho : o = off
          · simp [ho]
          · simp [ho]
        · simp [hi]
      · funext id
        by_cases hi : id = i
        · subst hi
          simp
        · simp [hi]

/-- Adding a source adds the one of the map entry. -/
theorem addSrcFromMapEntry_eq {u u' : CoreUop} {e : MapEntry} {type : DepType}
    (h : addSrcFromMapEntry u e type = some u') :
    u' = { u with mapSrcInfo := u.mapSrcInfo ++ [⟨type, e.uop, e.uopNum⟩] } := by
  unfold addSrcFromMapEntry at h
  split at h
  · simp at h
  · split at h
    · simp at h
    · simpa using h.symm

/-- The loop of `read_reg_map` appends one source for each register. -/
theorem foldlM_addSrc_eq (f : ℕ → MapEntry) (ids : List ℕ) {u u' : CoreUop}
    (h : ids.foldlM (fun u id =>
      if id < numRegIds then addSrcFromMapEntry u (f id) .regDataDep else none) u = some u') :
    u' = { u with
      mapSrcInfo := u.mapSrcInfo ++ ids.map fun id => ⟨.regDataDep, (f id).uop, (f id).uopNum⟩ } := by
  induction ids generalizing u with
  | nil => simpa using h.symm
  | cons id ids ih =>
      rw [List.foldlM_cons] at h
      obtain ⟨v, hv, h⟩ := Option.bind_eq_some_iff.mp h
      split at hv
      · obtain rfl := addSrcFromMapEntry_eq hv
        rw [ih h]
        simp
      · simp at hv

/-- Writing registers, where it succeeds, writes all of them. -/
theorem foldlM_write_eq (off : Bool) (e : MapEntry) (ids : List ℕ) {d d' : MapData}
    (h : ids.foldlM (fun (d : MapData) id =>
      if id < numRegIds then some (d.setReg id off e) else none) d = some d') :
    d' = ids.foldl (fun d id => d.setReg id off e) d := by
  induction ids generalizing d with
  | nil => simpa using h.symm
  | cons id ids ih =>
      rw [List.foldlM_cons] at h
      obtain ⟨v, hv, h⟩ := Option.bind_eq_some_iff.mp h
      split at hv
      · cases hv
        exact ih h
      · simp at hv

/-- What a successful `map_uop` leaves behind. -/
def mapped (k : DepKnobs) (s : DepCore) (p : UopPtr) : DepCore :=
  let uop := s.heap p
  let d := (s.coreMapData uop.threadId).getD MapData.initial
  (s.setUop p
    { uop with mapSrcInfo := uop.mapSrcInfo ++ regSources d uop ++ addrSources k d uop }).setMapData
    uop.threadId (regWrites d p uop)

/-- Reading the register map takes the sources of the uop. -/
theorem readRegMap_eq {s s' : DepCore} {p : UopPtr} (h : s.readRegMap p = some s') :
    let uop := s.heap p
    let d := (s.coreMapData uop.threadId).getD MapData.initial
    s' = (s.setUop p { uop with mapSrcInfo := uop.mapSrcInfo ++ regSources d uop }).setMapData
      uop.threadId d := by
  unfold DepCore.readRegMap at h
  obtain ⟨u, hu, rfl⟩ := Option.map_eq_some_iff.mp h
  obtain rfl := foldlM_addSrc_eq _ _ hu
  rfl

/-- Reading the store map takes the last stores that the uop depends on. -/
theorem readStoreMap_eq {k : DepKnobs} {s s' : DepCore} {p : UopPtr} {d : MapData}
    (hd : s.coreMapData (s.heap p).threadId = some d) (h : s.readStoreMap k p = some s') :
    s' = s.setUop p
      { s.heap p with mapSrcInfo := (s.heap p).mapSrcInfo ++ addrSources k d (s.heap p) } := by
  have same : s.setUop p (s.heap p) = s := by simp [DepCore.setUop]
  unfold DepCore.readStoreMap at h
  simp only [hd] at h
  split at h
  · next hk =>
      have hnone : addrSources k d (s.heap p) = [] := by
        simp only [Bool.or_eq_true, Bool.not_eq_true'] at hk
        simp only [addrSources, ite_eq_right_iff]
        rintro ⟨ho, hm, -⟩
        simp [ho, hm] at hk
      simpa [hnone, same] using h.symm
  · next hk =>
      simp only [Bool.or_eq_true, Bool.not_eq_true', not_or, Bool.not_eq_false,
        Bool.not_eq_true] at hk
      split at h
      · next hm =>
          obtain ⟨u, hu, rfl⟩ := Option.map_eq_some_iff.mp h
          rw [addSrcFromMapEntry_eq hu, addrSources, if_pos ⟨hk.1, hk.2, hm⟩]
      · next hm =>
          have hnone : addrSources k d (s.heap p) = [] := by simp [addrSources, not_not.mp hm]
          simpa [hnone, same] using h.symm

/-- Updating the map writes the registers of the uop. -/
theorem updateMap_eq {s s' : DepCore} {p : UopPtr} {d : MapData}
    (hd : s.coreMapData (s.heap p).threadId = some d) (h : s.updateMap p = some s') :
    s' = s.setMapData (s.heap p).threadId (regWrites d p (s.heap p)) := by
  unfold DepCore.updateMap at h
  simp only [hd] at h
  obtain ⟨e, he, rfl⟩ := Option.map_eq_some_iff.mp h
  rw [foldlM_write_eq _ _ _ he, regWrites]

/-- Mapping a uop maps all of this in one step. -/
theorem mapUop_eq {k : DepKnobs} {s s' : DepCore} {p : UopPtr}
    (h : s.mapUop k p = some s') : s' = mapped k s p := by
  unfold DepCore.mapUop at h
  obtain ⟨s₁, h₁, h⟩ := Option.bind_eq_some_iff.mp h
  obtain ⟨s₂, h₂, h₃⟩ := Option.bind_eq_some_iff.mp h
  obtain rfl := readRegMap_eq h₁
  let d := (s.coreMapData (s.heap p).threadId).getD MapData.initial
  obtain rfl := readStoreMap_eq (d := d) (by simp [d]) h₂
  obtain rfl := updateMap_eq (d := d) (by simp [d]) h₃
  simp [mapped, DepCore.setUop, DepCore.setMapData, regWrites, addrSources, d]

/-! ## The pool -/

/-- The objects of `l` and of the pool are all different, and none of them is the sentinel or
an object still to be made. -/
structure Owns (s : DepCore) (l : List UopPtr) : Prop where
  nodup : (s.pool ++ l).Nodup
  range : ∀ q ∈ s.pool ++ l, invalidUop < q ∧ q < s.nextUop
  next : invalidUop < s.nextUop

/-- Who owns the uops does not depend on their order. -/
theorem Owns.perm {s : DepCore} {l l' : List UopPtr} (h : Owns s l) (hl : l.Perm l') :
    Owns s l' := by
  have hp := hl.append_left s.pool
  exact ⟨hp.nodup_iff.mp h.nodup, fun q hq => h.range q (hp.mem_iff.mpr hq), h.next⟩

/-- The bookkeeping of the pool does not look at the rest of the state. -/
theorem Owns.congr {s s' : DepCore} {l : List UopPtr} (h : Owns s l) (hp : s'.pool = s.pool)
    (hn : s'.nextUop = s.nextUop) : Owns s' l :=
  ⟨hp ▸ h.nodup, by rw [hp, hn]; exact h.range, hn ▸ h.next⟩

/-- A uop that is taken from the pool is owned. -/
theorem Owns.acquireEntry {s : DepCore} {l : List UopPtr} (h : Owns s l) :
    Owns s.acquireEntry.2 (s.acquireEntry.1 :: l) := by
  obtain ⟨hnd, hr, hn⟩ := h
  unfold DepCore.acquireEntry
  cases hpool : s.pool with
  | cons p rest =>
      rw [hpool] at hnd hr
      have hperm : (p :: rest ++ l).Perm (rest ++ p :: l) := by
        simpa using List.perm_middle.symm
      exact ⟨hperm.nodup_iff.mp hnd, fun q hq => hr q (hperm.mem_iff.mpr hq), hn⟩
  | nil =>
      rw [hpool] at hnd hr
      simp only [List.nil_append] at hnd hr
      have hunit : uopPoolUnit = 1000 := rfl
      have hfresh : ∀ q : ℕ, q ∈ List.range' (s.nextUop + 1) (uopPoolUnit - 1) →
          s.nextUop < q ∧ q < s.nextUop + uopPoolUnit := by
        intro q hq
        rw [List.mem_range'_1] at hq
        exact ⟨hq.1, lt_of_lt_of_eq hq.2 (Nat.add_assoc _ 1 999)⟩
      refine ⟨?_, ?_, ?_⟩
      · rw [List.nodup_append]
        refine ⟨List.nodup_range', List.nodup_cons.mpr ⟨?_, hnd⟩, ?_⟩
        · intro hmem
          exact absurd (hr _ hmem).2 (lt_irrefl _)
        · intro a ha b hb
          rcases List.mem_cons.mp hb with rfl | hb
          · exact (hfresh a ha).1.ne'
          · exact (lt_trans (hr b hb).2 (hfresh a ha).1).ne'
      · intro q hq
        rcases List.mem_append.mp hq with hq | hq
        · exact ⟨lt_trans hn (hfresh q hq).1, (hfresh q hq).2⟩
        · rcases List.mem_cons.mp hq with rfl | hq
          · exact ⟨hn, by simp [hunit]⟩
          · exact ⟨(hr q hq).1, lt_trans (hr q hq).2 (by simp [hunit])⟩
      · exact lt_trans hn (by simp [hunit])

/-- A uop that is given back is no longer owned. -/
theorem Owns.releaseEntry {s : DepCore} {p : UopPtr} {l : List UopPtr} (h : Owns s (p :: l)) :
    Owns (s.releaseEntry p) l := by
  have hperm : (s.pool ++ p :: l).Perm ((s.releaseEntry p).pool ++ l) := by
    simp [DepCore.releaseEntry]
  exact ⟨hperm.nodup_iff.mp h.nodup, fun q hq => h.range q (hperm.mem_iff.mpr hq), h.next⟩

/-- Taking a uop from the pool leaves the heap alone. -/
@[simp] theorem acquireEntry_heap (s : DepCore) : s.acquireEntry.2.heap = s.heap := by
  unfold DepCore.acquireEntry
  split <;> rfl

/-- Taking a uop from the pool leaves the map data alone. -/
@[simp] theorem acquireEntry_coreMapData (s : DepCore) :
    s.acquireEntry.2.coreMapData = s.coreMapData := by
  unfold DepCore.acquireEntry
  split <;> rfl

/-- Taking a uop from the pool leaves the numbering alone. -/
@[simp] theorem acquireEntry_uopCount (s : DepCore) :
    s.acquireEntry.2.uopCount = s.uopCount := by
  unfold DepCore.acquireEntry
  split <;> rfl

/-- Taking a uop from the pool leaves the uops in flight alone. -/
@[simp] theorem acquireEntry_inFlight (s : DepCore) :
    s.acquireEntry.2.inFlight = s.inFlight := by
  unfold DepCore.acquireEntry
  split <;> rfl

/-- Taking a uop from the pool leaves the waiting uops alone. -/
@[simp] theorem acquireEntry_waiting (s : DepCore) :
    s.acquireEntry.2.waiting = s.waiting := by
  unfold DepCore.acquireEntry
  split <;> rfl

/-- Taking a uop from the pool leaves the schedule alone. -/
@[simp] theorem acquireEntry_inSched (s : DepCore) :
    s.acquireEntry.2.inSched = s.inSched := by
  unfold DepCore.acquireEntry
  split <;> rfl

/-- Taking a uop from the pool leaves the clock alone. -/
@[simp] theorem acquireEntry_cycle (s : DepCore) : s.acquireEntry.2.cycle = s.cycle := by
  unfold DepCore.acquireEntry
  split <;> rfl

/-! ## A new uop -/

/-- `s'` is `s` with the children `cs` added to the uop `p` of thread `tid`. -/
structure Grown (s s' : DepCore) (p : UopPtr) (tid : ℕ) (cs : List UopPtr) : Prop where
  self : s'.heap p = { s.heap p with childUops := (s.heap p).childUops ++ cs }
  frame : ∀ q, q ≠ p → q ∉ cs → s'.heap q = s.heap q
  children : ∀ c ∈ cs, (s'.heap c).offPath = (s.heap p).offPath
  count : s'.uopCount = Function.update s.uopCount tid (s.uopCount tid + cs.length)
  coreMapData : s'.coreMapData = s.coreMapData
  inFlight : s'.inFlight = s.inFlight
  waiting : s'.waiting = s.waiting
  inSched : s'.inSched = s.inSched
  cycle : s'.cycle = s.cycle

/-- A child that is added is owned, and its parent has grown by it. -/
theorem addChild_grown {s : DepCore} {p : UopPtr} {l : List UopPtr} (tid size : ℕ) (va : Addr)
    (ho : Owns s l) (hp : p ∈ l) :
    Grown s (DepCore.addChild p tid size s va) p tid [s.acquireEntry.1] ∧
      Owns (DepCore.addChild p tid size s va) (s.acquireEntry.1 :: l) := by
  have ho' := ho.acquireEntry
  have hne : s.acquireEntry.1 ≠ p := by
    intro h
    have := (List.nodup_cons.mp (List.nodup_append.mp ho'.nodup).2.1).1
    exact this (h ▸ hp)
  refine ⟨⟨?_, ?_, ?_, ?_, ?_, ?_, ?_, ?_, ?_⟩, ho'.congr ?_ ?_⟩
  · simp [DepCore.addChild]
  · intro q hq hc
    simp only [List.mem_singleton] at hc
    simp [DepCore.addChild, hq, hc]
  · intro c hc
    obtain rfl := List.mem_singleton.mp hc
    simp [DepCore.addChild, hne]
  all_goals simp [DepCore.addChild]

/-- Children that are added are owned, and their parent has grown by all of them. -/
theorem foldl_addChild_grown (tid size : ℕ) (vas : List Addr) {s : DepCore} {p : UopPtr}
    {l : List UopPtr} (ho : Owns s l) (hp : p ∈ l) :
    ∃ cs, cs.length = vas.length ∧
      Grown s (vas.foldl (DepCore.addChild p tid size) s) p tid cs ∧
      Owns (vas.foldl (DepCore.addChild p tid size) s) (cs ++ l) := by
  induction vas generalizing s l with
  | nil =>
      refine ⟨[], rfl, ⟨?_, ?_, ?_, ?_, rfl, rfl, rfl, rfl, rfl⟩, ho⟩
      · simp
      · simp
      · simp
      · simp
  | cons va vas ih =>
      obtain ⟨g, ho₁⟩ := addChild_grown tid size va ho hp
      obtain ⟨cs, hlen, g', ho'⟩ := ih ho₁ (List.mem_cons_of_mem _ hp)
      have hapart : s.acquireEntry.1 ∉ cs ∧ s.acquireEntry.1 ≠ p := by
        have hnd := List.nodup_append.mp (List.nodup_append.mp ho'.nodup).2.1
        refine ⟨fun hc => hnd.2.2 _ hc _ List.mem_cons_self rfl, fun hp' => ?_⟩
        exact (List.nodup_cons.mp hnd.2.1).1 (hp' ▸ hp)
      refine ⟨s.acquireEntry.1 :: cs, by simp [hlen], ⟨?_, ?_, ?_, ?_, ?_, ?_, ?_, ?_, ?_⟩, ?_⟩
      · rw [List.foldl_cons, g'.self, g.self]
        simp
      · intro q hq hc
        rw [List.mem_cons, not_or] at hc
        rw [List.foldl_cons, g'.frame q hq hc.2, g.frame q hq (by simpa using hc.1)]
      · intro c hc
        rw [List.foldl_cons]
        rcases List.mem_cons.mp hc with rfl | hc
        · rw [g'.frame _ hapart.2 hapart.1, g.children _ (List.mem_singleton_self _)]
        · rw [g'.children c hc, g.self]
      · rw [List.foldl_cons, g'.count, g.count]
        funext i
        by_cases hi : i = (tid : ℤ)
        · subst hi
          simp only [Function.update_self, List.length_cons, List.length_nil]
          omega
        · simp [hi]
      · exact g'.coreMapData.trans g.coreMapData
      · exact g'.inFlight.trans g.inFlight
      · exact g'.waiting.trans g.waiting
      · exact g'.inSched.trans g.inSched
      · exact g'.cycle.trans g.cycle
      · exact ho'.perm (List.perm_middle)

/-- The objects that a fetch takes, and the uop it leaves in the first of them. -/
theorem newUop_spec {s : DepCore} {l : List UopPtr} (ho : Owns s l) (tid : ℕ) (t : TraceUop) :
    ∃ cs, cs.length = t.children.length ∧
      (s.newUop tid t).2.heap (s.newUop tid t).1 =
        { DepCore.uopOfTrace tid (s.uopCount tid) t with childUops := cs } ∧
      (∀ q, q ≠ (s.newUop tid t).1 → q ∉ cs → (s.newUop tid t).2.heap q = s.heap q) ∧
      (∀ c ∈ cs, ((s.newUop tid t).2.heap c).offPath = false) ∧
      (s.newUop tid t).2.uopCount =
        Function.update s.uopCount tid (s.uopCount tid + (cs.length + 1)) ∧
      (s.newUop tid t).2.coreMapData = s.coreMapData ∧
      (s.newUop tid t).2.inFlight = s.inFlight ∧
      (s.newUop tid t).2.waiting = s.waiting ∧
      (s.newUop tid t).2.inSched = s.inSched ∧
      (s.newUop tid t).2.cycle = s.cycle ∧
      Owns (s.newUop tid t).2 ((s.newUop tid t).1 :: cs ++ l) := by
  let p := s.acquireEntry.1
  let s₁ : DepCore :=
    { s.acquireEntry.2.setUop p (DepCore.uopOfTrace tid (s.uopCount tid) t) with
      uopCount := Function.update s.uopCount tid (s.uopCount tid + 1) }
  have hnew : s.newUop tid t = (p, t.children.foldl (DepCore.addChild p tid t.childSize) s₁) := by
    simp [DepCore.newUop, s₁, p]
  have ho₁ : Owns s₁ (p :: l) := ho.acquireEntry.congr rfl rfl
  obtain ⟨cs, hlen, g, ho'⟩ :=
    foldl_addChild_grown tid t.childSize t.children ho₁ List.mem_cons_self
  rw [hnew]
  refine ⟨cs, hlen, ?_, ?_, ?_, ?_, ?_, ?_, ?_, ?_, ?_, ho'.perm List.perm_middle⟩
  · rw [g.self]
    simp [s₁, DepCore.uopOfTrace, CoreUop.init]
  · intro q hq hc
    rw [g.frame q hq hc]
    simp [s₁, hq]
  · intro c hc
    rw [g.children c hc]
    simp [s₁, DepCore.uopOfTrace, CoreUop.init]
  · rw [g.count]
    funext i
    by_cases hi : i = (tid : ℤ)
    · subst hi
      simp only [Function.update_self, s₁]
      omega
    · simp [hi, s₁]
  · rw [g.coreMapData]
    simp [s₁]
  · rw [g.inFlight]
    simp [s₁]
  · rw [g.waiting]
    simp [s₁]
  · rw [g.inSched]
    simp [s₁]
  · rw [g.cycle]
    simp [s₁]

/-! ## The identities of the uops -/

/-- What does not change of a uop while it is in flight. -/
def fixedPart (u : CoreUop) : CoreUop :=
  { u with mapSrcInfo := [], srcsRdy := false, lastDepExec := none, doneCycle := 0 }

/-- A fetched uop: its object, its thread and number, what the trace said of it and the
objects of its children.  `producers` are, by pointer and number, the most recent older uops
of its thread that write its source registers, and `stores` the stores that `add_store_deps`
selected for it. -/
structure Fetched where
  uop : UopPtr
  tid : ℕ
  num : ℕ
  trace : TraceUop
  children : List UopPtr
  producers : List (UopPtr × ℕ)
  stores : List (UopPtr × ℕ)
  retired : Bool
  deriving DecidableEq

/-- The objects of a fetched uop. -/
def Fetched.objects (r : Fetched) : List UopPtr := r.uop :: r.children

/-- What the object of a fetched uop holds. -/
def Fetched.fixed (r : Fetched) : CoreUop :=
  { DepCore.uopOfTrace r.tid r.num r.trace with childUops := r.children }

/-- A core with the uops it has fetched, in program order. -/
structure Logged where
  core : DepCore
  log : List Fetched

/-- The uops that are still in flight. -/
def live (log : List Fetched) : List Fetched := log.filter fun r => !r.retired

/-- The most recent uop of a thread that writes a register. -/
def producer (log : List Fetched) (tid id : ℕ) : Option Fetched :=
  lastMatch (fun w => w.tid == tid && w.trace.dests.contains id) log

/-- The stores that `add_store_deps` selects for a uop. -/
def selectedStores (k : DepKnobs) (s : DepCore) (p : UopPtr) : List UopPtr :=
  let uop := s.heap p
  if k.memObeyStoreDep && uop.memType.hashedLoad then
    match (s.coreMapData uop.threadId).bind
        (fun d => d.oracleMemHash (memMapKey uop.vaddr uop.offPath)) with
    | none => []
    | some e => ((DepCore.storeDeps k s.heap uop.vaddr uop.memSize e).map (·.1)).getD []
  else []

namespace Logged

/-- The entry of a fetch. -/
def entry (k : DepKnobs) (x : Logged) (tid : ℕ) (t : TraceUop) : Fetched :=
  let p := (x.core.newUop tid t).1
  let s₁ := (x.core.newUop tid t).2
  { uop := p
    tid := tid
    num := x.core.uopCount tid
    trace := t
    children := (s₁.heap p).childUops
    producers :=
      t.srcs.filterMap fun id => (producer x.log tid id).map fun w => (w.uop, w.num)
    stores :=
      (selectedStores k (mapped k s₁ p) p).map fun q => (q, ((mapped k s₁ p).heap q).uopNum)
    retired := false }

/-- Mark the uop in an object as retired. -/
def retireEntry (p : UopPtr) (r : Fetched) : Fetched :=
  if r.uop = p then { r with retired := true } else r

/-- A retirement in the log changes no uop. -/
@[simp] theorem retireEntry_uop (p : UopPtr) (r : Fetched) : (retireEntry p r).uop = r.uop := by
  unfold retireEntry
  split <;> rfl

/-- A retirement in the log changes no thread. -/
@[simp] theorem retireEntry_tid (p : UopPtr) (r : Fetched) : (retireEntry p r).tid = r.tid := by
  unfold retireEntry
  split <;> rfl

/-- A retirement in the log changes no number. -/
@[simp] theorem retireEntry_num (p : UopPtr) (r : Fetched) : (retireEntry p r).num = r.num := by
  unfold retireEntry
  split <;> rfl

/-- A retirement in the log changes no trace. -/
@[simp] theorem retireEntry_trace (p : UopPtr) (r : Fetched) :
    (retireEntry p r).trace = r.trace := by
  unfold retireEntry
  split <;> rfl

/-- The log after an action. -/
def logAct (k : DepKnobs) (x : Logged) : DepAct → List Fetched
  | .fetch tid t => x.log ++ [entry k x tid t]
  | .retire p => x.log.map (retireEntry p)
  | .endThread tid => x.log.filter fun r => r.tid ≠ tid
  | _ => x.log

def step (k : DepKnobs) (x : Logged) (a : DepAct) : Option Logged :=
  (x.core.step k a).map fun c => ⟨c, logAct k x a⟩

def run (k : DepKnobs) (x : Logged) (acts : List DepAct) : Option Logged :=
  acts.foldlM (step k) x

/-- Before the first fetch. -/
def start : Logged := ⟨DepCore.new, []⟩

end Logged

/-! ## The books -/

/-- What holds of the log in every state of a run. -/
structure UopBooks (x : Logged) : Prop where
  inFlight : x.core.inFlight = (live x.log).map (·.uop)
  owns : Owns x.core ((live x.log).flatMap Fetched.objects)
  fixed : ∀ r ∈ live x.log, fixedPart (x.core.heap r.uop) = r.fixed
  sentinel : (x.core.heap invalidUop).valid = false ∧ (x.core.heap invalidUop).uopNum = 0
  counted : ∀ r ∈ x.log, r.num < x.core.uopCount r.tid
  ordered : x.log.Pairwise fun a b => a.tid = b.tid → a.num < b.num
  object : ∀ r ∈ x.log, r.uop ≠ invalidUop
  onPath : ∀ q, (x.core.heap q).offPath = false

/-- `s'` differs from `s` only in what may change of uops in flight and in the map. -/
structure Keeps (s s' : DepCore) : Prop where
  heap : ∀ q, fixedPart (s'.heap q) = fixedPart (s.heap q)
  pool : s'.pool = s.pool
  nextUop : s'.nextUop = s.nextUop
  uopCount : s'.uopCount = s.uopCount
  inFlight : s'.inFlight = s.inFlight

/-- Nothing done keeps what identifies the uops. -/
theorem Keeps.refl (s : DepCore) : Keeps s s := ⟨fun _ => rfl, rfl, rfl, rfl, rfl⟩

/-- Two steps that keep what identifies the uops keep it together. -/
theorem Keeps.trans {s₁ s₂ s₃ : DepCore} (h : Keeps s₁ s₂) (h' : Keeps s₂ s₃) : Keeps s₁ s₃ :=
  ⟨fun q => (h'.heap q).trans (h.heap q), h'.pool.trans h.pool, h'.nextUop.trans h.nextUop,
    h'.uopCount.trans h.uopCount, h'.inFlight.trans h.inFlight⟩

/-- A change of a uop outside its fixed part keeps what identifies the uops. -/
theorem Keeps.setUop (s : DepCore) {p : UopPtr} {u : CoreUop}
    (h : fixedPart u = fixedPart (s.heap p)) : Keeps s (s.setUop p u) := by
  refine ⟨fun q => ?_, rfl, rfl, rfl, rfl⟩
  by_cases hq : q = p
  · subst hq
    simpa using h
  · simp [hq]

/-- What both branches keep is kept by the choice between them. -/
theorem Keeps.ite {c : Prop} [Decidable c] {s s₁ s₂ : DepCore} (h₁ : Keeps s s₁)
    (h₂ : Keeps s s₂) : Keeps s (if c then s₁ else s₂) := by
  split
  · exact h₁
  · exact h₂

/-- A change of the map data keeps what identifies the uops. -/
theorem Keeps.setMapData (s : DepCore) (tid : ℤ) (d : MapData) : Keeps s (s.setMapData tid d) :=
  ⟨fun _ => rfl, rfl, rfl, rfl, rfl⟩

/-- What is kept includes that a uop is valid. -/
theorem Keeps.valid {s s' : DepCore} (h : Keeps s s') (q : UopPtr) :
    (s'.heap q).valid = (s.heap q).valid := by
  simpa [fixedPart] using congrArg CoreUop.valid (h.heap q)

/-- What is kept includes the number of a uop. -/
theorem Keeps.uopNum {s s' : DepCore} (h : Keeps s s') (q : UopPtr) :
    (s'.heap q).uopNum = (s.heap q).uopNum := by
  simpa [fixedPart] using congrArg CoreUop.uopNum (h.heap q)

/-- What is kept includes the thread of a uop. -/
theorem Keeps.threadId {s s' : DepCore} (h : Keeps s s') (q : UopPtr) :
    (s'.heap q).threadId = (s.heap q).threadId := by
  simpa [fixedPart] using congrArg CoreUop.threadId (h.heap q)

/-- What is kept includes the path of a uop. -/
theorem Keeps.offPath {s s' : DepCore} (h : Keeps s s') (q : UopPtr) :
    (s'.heap q).offPath = (s.heap q).offPath := by
  simpa [fixedPart] using congrArg CoreUop.offPath (h.heap q)

/-- A step that keeps what identifies the uops keeps the books right. -/
theorem UopBooks.keeps {x : Logged} {s : DepCore} (h : UopBooks x) (hk : Keeps x.core s) :
    UopBooks ⟨s, x.log⟩ where
  inFlight := hk.inFlight.trans h.inFlight
  owns := h.owns.congr hk.pool hk.nextUop
  fixed := fun r hr => (hk.heap r.uop).trans (h.fixed r hr)
  sentinel := ⟨(hk.valid _).trans h.sentinel.1, (hk.uopNum _).trans h.sentinel.2⟩
  counted := fun r hr => hk.uopCount ▸ h.counted r hr
  ordered := h.ordered
  object := h.object
  onPath := fun q => (hk.offPath q).trans (h.onPath q)

/-! ## The map keeps the identities -/

/-- Mapping a uop keeps what identifies the uops. -/
theorem mapped_keeps (k : DepKnobs) (s : DepCore) (p : UopPtr) : Keeps s (mapped k s p) := by
  refine Keeps.trans ?_ (Keeps.setMapData _ _ _)
  exact Keeps.setUop s rfl

/-- Sources added to those a uop has: each names a store of the list whose number no earlier
source carried, and a store whose number none carried is there by number. -/
structure Added (heap : UopHeap) (old mem : List SrcInfo) (stores : List UopPtr) : Prop where
  new : ∀ info ∈ mem, ∃ q ∈ stores, info = ⟨.memDataDep, q, (heap q).uopNum⟩ ∧
    ∀ i ∈ old, (heap i.uop).uopNum ≠ (heap q).uopNum
  there : ∀ q ∈ stores, (∀ i ∈ old, (heap i.uop).uopNum ≠ (heap q).uopNum) →
    ∃ info ∈ mem, (heap info.uop).uopNum = (heap q).uopNum

/-- Adding memory sources writes the sources of the uop, and nothing else. -/
theorem foldlM_addSrcFromUop {p : UopPtr} (stores : List UopPtr) {heap heap' : UopHeap}
    (h : stores.foldlM (addSrcFromUop .memDataDep p) heap = some heap') :
    ∃ mem, Added heap (heap p).mapSrcInfo mem stores ∧
      heap' = Function.update heap p
        { heap p with mapSrcInfo := (heap p).mapSrcInfo ++ mem } := by
  induction stores generalizing heap with
  | nil =>
      refine ⟨[], ⟨by simp, by simp⟩, ?_⟩
      simpa using (Option.some.inj h).symm
  | cons q stores ih =>
      rw [List.foldlM_cons] at h
      obtain ⟨heap₁, h₁, h⟩ := Option.bind_eq_some_iff.mp h
      obtain ⟨mem, hadd, rfl⟩ := ih h
      unfold addSrcFromUop at h₁
      dsimp only at h₁
      split at h₁
      · next hthere =>
          obtain rfl := Option.some.inj h₁
          refine ⟨mem, ⟨?_, ?_⟩, rfl⟩
          · intro info hinfo
            obtain ⟨q', hq', hi⟩ := hadd.new info hinfo
            exact ⟨q', List.mem_cons_of_mem _ hq', hi⟩
          · intro q' hq' hno
            rcases List.mem_cons.mp hq' with rfl | hq'
            · obtain ⟨i, hi, hn⟩ := List.any_eq_true.mp hthere
              exact absurd (by simpa using hn) (hno i hi)
            · exact hadd.there q' hq' hno
      · next hnot =>
          split at h₁
          · simp at h₁
          · obtain rfl := Option.some.inj h₁
            -- the write changes no number
            have hnum : ∀ c : UopPtr, (Function.update heap p
                { heap p with
                  mapSrcInfo := (heap p).mapSrcInfo ++
                    [(⟨.memDataDep, q, (heap q).uopNum⟩ : SrcInfo)] } c).uopNum =
                (heap c).uopNum := by
              intro c
              by_cases hc : c = p
              · subst hc
                simp
              · simp [hc]
            have hfresh : ∀ i ∈ (heap p).mapSrcInfo, (heap i.uop).uopNum ≠ (heap q).uopNum := by
              intro i hi hn
              exact hnot (List.any_eq_true.mpr ⟨i, hi, by simpa using hn⟩)
            refine ⟨⟨.memDataDep, q, (heap q).uopNum⟩ :: mem, ⟨?_, ?_⟩, by simp⟩
            · intro info hinfo
              rcases List.mem_cons.mp hinfo with rfl | hinfo
              · exact ⟨q, List.mem_cons_self, rfl, hfresh⟩
              · obtain ⟨q', hq', hi, hno⟩ := hadd.new info hinfo
                simp only [hnum] at hi hno
                exact ⟨q', List.mem_cons_of_mem _ hq', hi, fun i hi' => hno i (by simp [hi'])⟩
            · intro q' hq' hno
              by_cases hn : (heap q).uopNum = (heap q').uopNum
              · exact ⟨_, List.mem_cons_self, hn⟩
              · rcases List.mem_cons.mp hq' with rfl | hq'
                · exact absurd rfl hn
                · obtain ⟨info, hinfo, hi⟩ := hadd.there q' hq' (by
                    intro i hi
                    rw [hnum, hnum]
                    simp only [Function.update_self, List.mem_append, List.mem_singleton] at hi
                    rcases hi with hi | rfl
                    · exact hno i hi
                    · exact hn)
                  simp only [hnum] at hi
                  exact ⟨info, List.mem_cons_of_mem _ hinfo, hi⟩

/-- Adding store dependences keeps what identifies the uops. -/
theorem addStoreDeps_keeps {k : DepKnobs} {s s' : DepCore} {p : UopPtr} {found : Option UopPtr}
    (h : s.addStoreDeps k p = some (found, s')) : Keeps s s' := by
  unfold DepCore.addStoreDeps at h
  dsimp only at h
  split at h
  · simp at h
  · split at h
    · simp only [Option.some.injEq, Prod.mk.injEq] at h
      exact h.2 ▸ Keeps.refl s
    · split at h
      · simp at h
      · obtain ⟨heap, hh, he⟩ := Option.map_eq_some_iff.mp h
        obtain ⟨mem, -, rfl⟩ := foldlM_addSrcFromUop _ hh
        obtain ⟨-, rfl⟩ := Prod.mk.inj he
        exact Keeps.setUop s rfl

/-- Updating the store hash keeps what identifies the uops. -/
theorem updateStoreHash_keeps {k : DepKnobs} {s s' : DepCore} {p : UopPtr}
    (h : s.updateStoreHash k p = some s') : Keeps s s' := by
  unfold DepCore.updateStoreHash at h
  dsimp only at h
  split at h
  · simp at h
  · split at h
    · simp at h
    · obtain rfl := Option.some.inj h
      exact Keeps.setMapData _ _ _

/-- Mapping a memory dependence keeps what identifies the uops. -/
theorem mapMemDep_keeps {k : DepKnobs} {s s' : DepCore} {p : UopPtr}
    (h : s.mapMemDep k p = some s') : Keeps s s' := by
  unfold DepCore.mapMemDep at h
  split at h
  · exact Option.some.inj h ▸ Keeps.refl s
  · split at h
    · exact updateStoreHash_keeps h
    · split at h
      · obtain ⟨⟨found, s₁⟩, h₁, rfl⟩ := Option.map_eq_some_iff.mp h
        exact addStoreDeps_keeps h₁
      · exact Option.some.inj h ▸ Keeps.refl s

/-- Mapping the dependences keeps what identifies the uops. -/
theorem mapDeps_keeps {k : DepKnobs} {s s' : DepCore} {p : UopPtr}
    (h : s.mapDeps k p = some s') : Keeps s s' := by
  unfold DepCore.mapDeps at h
  split at h
  · exact Option.some.inj h ▸ Keeps.refl s
  · obtain ⟨s₁, h₁, h₂⟩ := Option.bind_eq_some_iff.mp h
    obtain rfl := mapUop_eq h₁
    exact (mapped_keeps k s p).trans (mapMemDep_keeps h₂)

/-! ## Issue keeps the identities -/

/-- Advancing a uop keeps what identifies the uops. -/
theorem advance_keeps (s : DepCore) (p : UopPtr) : Keeps s (s.advance p) := by
  have hw : Keeps s { s with waiting := s.waiting.erase p } := ⟨fun _ => rfl, rfl, rfl, rfl, rfl⟩
  unfold DepCore.advance
  dsimp only
  refine Keeps.ite (hw.trans (Keeps.setUop _ rfl)) ?_
  exact ⟨fun _ => rfl, rfl, rfl, rfl, rfl⟩

/-- Checking the sources keeps what identifies the uops. -/
theorem checkSrcs_keeps (s : DepCore) (p : UopPtr) : Keeps s (s.checkSrcs p).2 := by
  unfold DepCore.checkSrcs
  dsimp only
  split
  · exact Keeps.refl s
  · split
    · exact Keeps.ite (Keeps.setUop s rfl) (Keeps.refl s)
    · exact Keeps.setUop s rfl

/-- Executing a uop keeps what identifies the uops. -/
theorem execUop_keeps (s : DepCore) (p : UopPtr) (env : SchedEnv) : Keeps s (s.execUop p env) := by
  unfold DepCore.execUop
  split
  · exact Keeps.refl s
  · exact Keeps.setUop s rfl

/-- Scheduling a uop keeps what identifies the uops. -/
theorem uopSchedule_keeps (s : DepCore) (p : UopPtr) (env : SchedEnv) :
    Keeps s (s.uopSchedule p env).2 := by
  have hsrc : Keeps s (if (s.heap p).bogus then (true, s) else s.checkSrcs p).2 := by
    split
    · exact Keeps.refl s
    · exact checkSrcs_keeps s p
  unfold DepCore.uopSchedule
  dsimp only
  generalize (if (s.heap p).bogus then (true, s) else s.checkSrcs p) = r at hsrc ⊢
  obtain ⟨ready, s₁⟩ := r
  split
  · exact Keeps.refl s
  · split
    · exact Keeps.refl s
    · split
      · exact hsrc
      · split
        · exact hsrc
        · split
          · exact hsrc
          · split
            · have he := hsrc.trans (execUop_keeps s₁ p env)
              exact ⟨he.heap, he.pool, he.nextUop, he.uopCount, he.inFlight⟩
            · exact hsrc

/-! Neither of them touches the map. -/

/-- Advancing a uop leaves the map data alone. -/
theorem advance_coreMapData (s : DepCore) (p : UopPtr) :
    (s.advance p).coreMapData = s.coreMapData := by
  unfold DepCore.advance
  dsimp only
  split <;> rfl

/-- Checking the sources leaves the map data alone. -/
theorem checkSrcs_coreMapData (s : DepCore) (p : UopPtr) :
    (s.checkSrcs p).2.coreMapData = s.coreMapData := by
  unfold DepCore.checkSrcs
  dsimp only
  split
  · rfl
  · split
    · rw [apply_ite DepCore.coreMapData]
      exact ite_self _
    · rfl

/-- Scheduling a uop leaves the map data alone. -/
theorem uopSchedule_coreMapData (s : DepCore) (p : UopPtr) (env : SchedEnv) :
    (s.uopSchedule p env).2.coreMapData = s.coreMapData := by
  have hsrc : (if (s.heap p).bogus then (true, s) else s.checkSrcs p).2.coreMapData =
      s.coreMapData := by
    split
    · rfl
    · exact checkSrcs_coreMapData s p
  have hexec : ∀ s₁ : DepCore, (s₁.execUop p env).coreMapData = s₁.coreMapData := by
    intro s₁
    unfold DepCore.execUop
    split <;> rfl
  unfold DepCore.uopSchedule
  dsimp only
  generalize (if (s.heap p).bogus then (true, s) else s.checkSrcs p) = r at hsrc ⊢
  obtain ⟨ready, s₁⟩ := r
  split
  · rfl
  · split
    · rfl
    · split
      · exact hsrc
      · split
        · exact hsrc
        · split
          · exact hsrc
          · split
            · exact (hexec s₁).trans hsrc
            · exact hsrc

/-! ## Retirement -/

/-- `free` writes one object, and removes the uop from the store hash. -/
theorem free_heap (k : DepKnobs) (s : DepCore) (p : UopPtr) :
    (s.free k p).heap =
      Function.update s.heap p { s.heap p with uopNum := 0, valid := false, threadId := -1 } := by
  have hdel : ∀ s : DepCore, (s.deleteStoreHashEntry k p).heap = s.heap := by
    intro s
    unfold DepCore.deleteStoreHashEntry
    dsimp only
    split
    · rfl
    · split
      · rfl
      · split
        · rfl
        · split <;> rfl
  unfold DepCore.free
  dsimp only
  split
  · simp [hdel]
  · simp

/-- What `free` leaves alone. -/
structure FreeFrame (s s' : DepCore) : Prop where
  pool : s'.pool = s.pool
  nextUop : s'.nextUop = s.nextUop
  uopCount : s'.uopCount = s.uopCount
  inFlight : s'.inFlight = s.inFlight
  cycle : s'.cycle = s.cycle

/-- Freeing a uop leaves the rest of the core alone. -/
theorem free_frame (k : DepKnobs) (s : DepCore) (p : UopPtr) : FreeFrame s (s.free k p) := by
  have hdel : ∀ s : DepCore, FreeFrame s (s.deleteStoreHashEntry k p) := by
    intro s
    unfold DepCore.deleteStoreHashEntry
    dsimp only
    split
    · exact ⟨rfl, rfl, rfl, rfl, rfl⟩
    · split
      · exact ⟨rfl, rfl, rfl, rfl, rfl⟩
      · split
        · exact ⟨rfl, rfl, rfl, rfl, rfl⟩
        · split <;> exact ⟨rfl, rfl, rfl, rfl, rfl⟩
  unfold DepCore.free
  dsimp only
  split
  · obtain ⟨h₁, h₂, h₃, h₄, h₅⟩ := hdel (s.setUop p { s.heap p with uopNum := 0, valid := false })
    exact ⟨h₁, h₂, h₃, h₄, h₅⟩
  · exact ⟨rfl, rfl, rfl, rfl, rfl⟩

/-- Freeing a list of objects. -/
def freeAll (k : DepKnobs) (s : DepCore) (l : List UopPtr) : DepCore :=
  l.foldl (fun s c => (s.free k c).releaseEntry c) s

/-- Freeing the resources of a uop frees its children and then the uop. -/
theorem freeUopResources_eq (k : DepKnobs) (s : DepCore) (p : UopPtr) :
    s.freeUopResources k p = freeAll k s ((s.heap p).childUops ++ [p]) := by
  simp [DepCore.freeUopResources, freeAll]

/-- Freeing uops gives them back and leaves the others alone. -/
theorem freeAll_spec (k : DepKnobs) (cs : List UopPtr) {s : DepCore} {l : List UopPtr}
    (ho : Owns s (cs ++ l)) :
    Owns (freeAll k s cs) l ∧ (∀ q ∉ cs, (freeAll k s cs).heap q = s.heap q) ∧
      (∀ q, ((freeAll k s cs).heap q).offPath = (s.heap q).offPath) ∧
      (freeAll k s cs).uopCount = s.uopCount ∧ (freeAll k s cs).inFlight = s.inFlight ∧
      (freeAll k s cs).cycle = s.cycle := by
  induction cs generalizing s with
  | nil => exact ⟨ho, fun _ _ => rfl, fun _ => rfl, rfl, rfl, rfl⟩
  | cons c cs ih =>
      have f := free_frame k s c
      have ho₁ : Owns ((s.free k c).releaseEntry c) (cs ++ l) :=
        (ho.congr f.pool f.nextUop).releaseEntry
      obtain ⟨ho', hh, hp, hc, hi, hy⟩ := ih ho₁
      refine ⟨ho', ?_, ?_, hc.trans f.uopCount, hi.trans f.inFlight, hy.trans f.cycle⟩
      · intro q hq
        rw [List.mem_cons, not_or] at hq
        have hstep : ((s.free k c).releaseEntry c).heap q = s.heap q := by
          show (s.free k c).heap q = s.heap q
          rw [free_heap, Function.update_of_ne hq.1]
        exact (hh q hq.2).trans hstep
      · intro q
        have hstep : (((s.free k c).releaseEntry c).heap q).offPath = (s.heap q).offPath := by
          show ((s.free k c).heap q).offPath = _
          rw [free_heap]
          by_cases hq : q = c
          · simp [hq]
          · simp [hq]
        exact (hp q).trans hstep

/-! ## The books along a run -/

/-- The books are right at the start. -/
theorem UopBooks.start : UopBooks Logged.start where
  inFlight := rfl
  owns := ⟨List.nodup_nil, fun _ h => (List.not_mem_nil h).elim, by decide⟩
  fixed := fun _ h => (List.not_mem_nil h).elim
  sentinel := ⟨rfl, rfl⟩
  counted := fun _ h => (List.not_mem_nil h).elim
  ordered := List.Pairwise.nil
  object := fun _ h => (List.not_mem_nil h).elim
  onPath := fun _ => rfl

/-- The live entries of two logs are those of the first and those of the second. -/
theorem live_append (l l' : List Fetched) : live (l ++ l') = live l ++ live l' :=
  List.filter_append ..

/-- An entry is live exactly when it is in the log and has not retired. -/
theorem mem_live {log : List Fetched} {r : Fetched} : r ∈ live log ↔ r ∈ log ∧ r.retired = false := by
  simp [live]

/-- Retiring an object takes its uop out of the live ones. -/
theorem live_retire (p : UopPtr) (log : List Fetched) :
    live (log.map (Logged.retireEntry p)) = (live log).filter fun r => r.uop ≠ p := by
  induction log with
  | nil => rfl
  | cons r log ih =>
      unfold live at ih ⊢
      rw [List.map_cons]
      by_cases hr : r.uop = p
      · cases hret : r.retired <;> simp [Logged.retireEntry, hr, hret, ih]
      · cases hret : r.retired <;> simp [Logged.retireEntry, hr, hret, ih]

/-- The live uops are one of them and the others. -/
theorem perm_retire {l : List Fetched} {r : Fetched} (hnd : (l.map (·.uop)).Nodup) (hr : r ∈ l) :
    l.Perm (r :: l.filter fun r' => r'.uop ≠ r.uop) := by
  have hfilter : l.erase r = l.filter fun r' => r'.uop ≠ r.uop := by
    rw [List.Nodup.erase_eq_filter hnd.of_map]
    refine List.filter_congr fun r' hr' => ?_
    have : r' = r ↔ r'.uop = r.uop := ⟨fun h => h ▸ rfl, List.inj_on_of_nodup_map hnd hr' hr⟩
    rw [Bool.eq_iff_iff]
    simp [this]
  exact hfilter ▸ List.perm_cons_erase hr

/-- No uop is live twice. -/
theorem UopBooks.nodup_uops {x : Logged} (h : UopBooks x) : ((live x.log).map (·.uop)).Nodup := by
  have hall := (List.nodup_append.mp h.owns.nodup).2.1
  refine List.Nodup.sublist ?_ hall
  generalize live x.log = l
  induction l with
  | nil => exact List.Sublist.slnil
  | cons r l ih =>
      rw [List.map_cons, List.flatMap_cons]
      exact (ih.trans (List.sublist_append_right r.children _)).cons_cons r.uop

/-- The objects of one live uop, in the order they are freed, and those of the others. -/
theorem UopBooks.owns_split {x : Logged} {r : Fetched} (h : UopBooks x) (hr : r ∈ live x.log) :
    Owns x.core ((r.children ++ [r.uop]) ++
      ((live x.log).filter fun r' => r'.uop ≠ r.uop).flatMap Fetched.objects) := by
  refine h.owns.perm (((perm_retire h.nodup_uops hr).flatMap_right _).trans ?_)
  rw [List.flatMap_cons]
  refine List.Perm.append_right _ ?_
  exact (List.perm_append_singleton r.uop r.children).symm

/-- The object of a child is not the object of a uop in flight. -/
theorem UopBooks.child_apart {x : Logged} (h : UopBooks x) {r r' : Fetched} {c : UopPtr}
    (hr : r ∈ live x.log) (hc : c ∈ r.children) (hr' : r' ∈ live x.log) : r'.uop ≠ c := by
  have hnd := List.nodup_append.mp (List.nodup_append.mp (h.owns_split hr).nodup).2.1
  intro he
  by_cases hu : r'.uop = r.uop
  · exact (List.nodup_append.mp hnd.1).2.2 c hc r.uop (List.mem_singleton_self _)
      (he.symm.trans hu)
  · have hmem : r' ∈ (live x.log).filter fun r' => r'.uop ≠ r.uop :=
      List.mem_filter.mpr ⟨hr', by simpa using hu⟩
    exact hnd.2.2 c (List.mem_append_left _ hc) r'.uop
      (List.mem_flatMap.mpr ⟨r', hmem, List.mem_cons_self⟩) he.symm

/-- A live uop is known by its object. -/
theorem UopBooks.live_unique {x : Logged} (h : UopBooks x) {r r' : Fetched} (hr : r ∈ live x.log)
    (hr' : r' ∈ live x.log) (he : r.uop = r'.uop) : r = r' :=
  List.inj_on_of_nodup_map h.nodup_uops hr hr' he

/-- Retiring a uop keeps the books right. -/
theorem UopBooks.retire {k : DepKnobs} {x : Logged} {p : UopPtr} (h : UopBooks x)
    (hp : p ∈ x.core.inFlight) :
    UopBooks ⟨{ x.core.freeUopResources k p with inFlight := x.core.inFlight.erase p },
      x.log.map (Logged.retireEntry p)⟩ := by
  have hp' := hp
  rw [h.inFlight] at hp'
  obtain ⟨r, hr, rfl⟩ := List.mem_map.mp hp'
  have hchildren : (x.core.heap r.uop).childUops = r.children :=
    congrArg CoreUop.childUops (h.fixed r hr)
  have ho := h.owns_split hr
  obtain ⟨ho', hheap, hpath, hcount, -, -⟩ := freeAll_spec k _ ho
  rw [freeUopResources_eq, hchildren]
  have hapart : ∀ q ∈ r.children ++ [r.uop],
      q ∉ ((live x.log).filter fun r' => r'.uop ≠ r.uop).flatMap Fetched.objects := by
    intro q hq hq'
    exact (List.nodup_append.mp (List.nodup_append.mp ho.nodup).2.1).2.2 q hq q hq' rfl
  refine ⟨?_, ?_, ?_, ?_, ?_, ?_, ?_, fun q => (hpath q).trans (h.onPath q)⟩
  · show x.core.inFlight.erase r.uop = _
    rw [live_retire, h.inFlight, List.Nodup.erase_eq_filter h.nodup_uops, List.filter_map]
    refine congrArg _ (List.filter_congr fun r' _ => ?_)
    rw [Bool.eq_iff_iff]
    simp
  · rw [live_retire]
    exact ho'.congr rfl rfl
  · rw [live_retire]
    intro r' hr'
    have hlive : r' ∈ live x.log := (List.mem_filter.mp hr').1
    have hout : r'.uop ∉ r.children ++ [r.uop] := by
      intro hin'
      exact hapart _ hin' (List.mem_flatMap.mpr ⟨r', hr', List.mem_cons_self⟩)
    rw [← h.fixed r' hlive]
    exact congrArg fixedPart (hheap r'.uop hout)
  · have hout : invalidUop ∉ r.children ++ [r.uop] := by
      intro hin'
      have := (ho.range invalidUop (List.mem_append_right _ (List.mem_append_left _ hin'))).1
      exact lt_irrefl _ this
    have hsame := hheap invalidUop hout
    exact ⟨hsame ▸ h.sentinel.1, hsame ▸ h.sentinel.2⟩
  · intro r' hr'
    obtain ⟨r₀, hr₀, rfl⟩ := List.mem_map.mp hr'
    have hlt := h.counted r₀ hr₀
    rw [← hcount] at hlt
    simpa using hlt
  · refine List.pairwise_map.mpr (h.ordered.imp ?_)
    intro a b hab
    simpa using hab
  · intro r' hr'
    obtain ⟨r₀, hr₀, rfl⟩ := List.mem_map.mp hr'
    simpa using h.object r₀ hr₀

/-- A new uop in flight, before its dependences are mapped. -/
theorem UopBooks.newUop {k : DepKnobs} {x : Logged} (h : UopBooks x) (tid : ℕ) (t : TraceUop) :
    let s₁ := (x.core.newUop tid t).2
    UopBooks ⟨{ s₁ with inFlight := s₁.inFlight ++ [(x.core.newUop tid t).1] },
      x.log ++ [Logged.entry k x tid t]⟩ := by
  intro s₁
  obtain ⟨cs, hlen, hself, hframe, hoff, hcount, -, hin, -, -, -, ho⟩ := newUop_spec h.owns tid t
  let p := (x.core.newUop tid t).1
  let r := Logged.entry k x tid t
  have hchildren : r.children = cs := congrArg CoreUop.childUops hself
  have hobj : r.objects = p :: cs := by
    rw [Fetched.objects, hchildren]
    rfl
  have hlive : live (x.log ++ [r]) = live x.log ++ [r] := by
    rw [live_append]
    rfl
  have hout : ∀ q ∈ (live x.log).flatMap Fetched.objects, q ≠ p ∧ q ∉ cs := by
    intro q hq
    have hapart := (List.nodup_append.mp (List.nodup_append.mp ho.nodup).2.1).2.2
    exact ⟨fun hqp => hapart p (by simp [p]) q hq hqp.symm,
      fun hqc => hapart q (by simp [hqc]) q hq rfl⟩
  have hzero : ∀ q ∈ p :: cs, invalidUop < q := by
    intro q hq
    exact (ho.range q (List.mem_append_right _ (List.mem_append_left _ hq))).1
  refine ⟨?_, ?_, ?_, ?_, ?_, ?_, ?_, ?_⟩
  · show s₁.inFlight ++ [p] = _
    rw [hlive, List.map_append, hin, h.inFlight]
    rfl
  · rw [hlive]
    refine (ho.perm ?_).congr rfl rfl
    rw [List.flatMap_append]
    refine List.perm_append_comm.trans (List.Perm.append_left _ ?_)
    show List.Perm (p :: cs) ([r].flatMap Fetched.objects)
    rw [List.flatMap_singleton, hobj]
  · rw [hlive]
    intro r' hr'
    rcases List.mem_append.mp hr' with hr' | hr'
    · obtain ⟨hp', hc'⟩ := hout r'.uop (List.mem_flatMap.mpr ⟨r', hr', List.mem_cons_self⟩)
      rw [← h.fixed r' hr']
      exact congrArg fixedPart (hframe r'.uop hp' hc')
    · obtain rfl := List.mem_singleton.mp hr'
      show fixedPart (s₁.heap p) = _
      rw [hself, Fetched.fixed, hchildren]
      rfl
  · have hne : invalidUop ≠ p := (hzero p List.mem_cons_self).ne
    have hnc : invalidUop ∉ cs := fun hc => lt_irrefl _ (hzero _ (List.mem_cons_of_mem _ hc))
    have hsame := hframe invalidUop hne hnc
    exact ⟨hsame ▸ h.sentinel.1, hsame ▸ h.sentinel.2⟩
  · intro r' hr'
    show r'.num < s₁.uopCount r'.tid
    rw [hcount]
    rcases List.mem_append.mp hr' with hr' | hr'
    · have hlt := h.counted r' hr'
      by_cases htid : r'.tid = tid
      · rw [htid] at hlt ⊢
        rw [Function.update_self]
        omega
      · rwa [Function.update_of_ne (by exact_mod_cast htid)]
    · obtain rfl := List.mem_singleton.mp hr'
      have hself' : (Logged.entry k x tid t).tid = tid := rfl
      have hnum : (Logged.entry k x tid t).num = x.core.uopCount tid := rfl
      rw [hself', hnum, Function.update_self]
      omega
  · refine List.pairwise_append.mpr ⟨h.ordered, List.pairwise_singleton _ _, ?_⟩
    intro a ha b hb htid
    obtain rfl := List.mem_singleton.mp hb
    have hlt := h.counted a ha
    rwa [htid] at hlt
  · intro r' hr'
    rcases List.mem_append.mp hr' with hr' | hr'
    · exact h.object r' hr'
    · obtain rfl := List.mem_singleton.mp hr'
      exact (hzero p List.mem_cons_self).ne'
  · intro q
    show (s₁.heap q).offPath = false
    by_cases hq : q = p
    · rw [hq, hself]
      rfl
    · by_cases hc : q ∈ cs
      · exact hoff q hc
      · rw [hframe q hq hc]
        exact h.onPath q

/-- Fetching a uop keeps the books right. -/
theorem UopBooks.fetch {k : DepKnobs} {x : Logged} {tid : ℕ} {t : TraceUop} {s' : DepCore}
    (h : UopBooks x) (hs : x.core.fetch k tid t = some s') :
    UopBooks ⟨s', x.log ++ [Logged.entry k x tid t]⟩ := by
  unfold DepCore.fetch at hs
  dsimp only at hs
  obtain ⟨s₂, h₂, rfl⟩ := Option.map_eq_some_iff.mp hs
  have hk := mapDeps_keeps h₂
  refine (h.newUop tid t).keeps ⟨hk.heap, hk.pool, hk.nextUop, hk.uopCount, ?_⟩
  exact congrArg (· ++ _) hk.inFlight

/-- Each step keeps the books right. -/
theorem UopBooks.step {k : DepKnobs} {x x' : Logged} {a : DepAct} (h : UopBooks x)
    (hs : x.step k a = some x') : UopBooks x' := by
  unfold Logged.step at hs
  obtain ⟨c, hc, rfl⟩ := Option.map_eq_some_iff.mp hs
  cases a with
  | fetch tid t => exact h.fetch hc
  | advance p =>
      dsimp only [DepCore.step] at hc
      split at hc
      · exact Option.some.inj hc ▸ h.keeps (advance_keeps x.core p)
      · simp at hc
  | schedule p env =>
      dsimp only [DepCore.step] at hc
      split at hc
      · exact Option.some.inj hc ▸ h.keeps (uopSchedule_keeps x.core p env)
      · simp at hc
  | complete p cycle =>
      obtain rfl := Option.some.inj hc
      exact h.keeps (Keeps.setUop x.core rfl)
  | retire p =>
      dsimp only [DepCore.step] at hc
      split at hc
      · next hp => exact Option.some.inj hc ▸ h.retire hp.1
      · simp at hc
  | endThread tid =>
      dsimp only [DepCore.step] at hc
      split at hc
      · simp at hc
      · next hany =>
          obtain rfl := Option.some.inj hc
          -- the uops of the thread are all retired, so dropping them drops no live one
          have hother : ∀ r ∈ live x.log, r.tid ≠ tid := by
            intro r hr htid
            apply hany
            rw [List.any_eq_true]
            refine ⟨r.uop, h.inFlight ▸ List.mem_map.mpr ⟨r, hr, rfl⟩, ?_⟩
            have hthread : (x.core.heap r.uop).threadId = r.tid :=
              congrArg CoreUop.threadId (h.fixed r hr)
            simp [hthread, htid]
          have hlive : live (x.log.filter fun r => r.tid ≠ tid) = live x.log := by
            unfold live at hother ⊢
            rw [List.filter_filter]
            refine List.filter_congr fun r hr => ?_
            cases hret : r.retired with
            | true => simp
            | false => simpa using hother r (List.mem_filter.mpr ⟨hr, by simp [hret]⟩)
          refine ⟨?_, ?_, ?_, h.sentinel, ?_, h.ordered.filter _, ?_, h.onPath⟩
          · show x.core.inFlight = _
            rw [Logged.logAct, hlive, h.inFlight]
          · rw [Logged.logAct, hlive]
            exact h.owns.congr rfl rfl
          · rw [Logged.logAct, hlive]
            exact h.fixed
          · intro r hr
            obtain ⟨hr, htid⟩ := List.mem_filter.mp hr
            have hne : (r.tid : ℤ) ≠ tid := by simpa using htid
            show r.num < Function.update x.core.uopCount (tid : ℤ) 0 r.tid
            rw [Function.update_of_ne hne]
            exact h.counted r hr
          · exact fun r hr => h.object r (List.mem_filter.mp hr).1
  | tick =>
      obtain rfl := Option.some.inj hc
      exact ⟨h.inFlight, h.owns.congr rfl rfl, h.fixed, h.sentinel, h.counted, h.ordered,
        h.object, h.onPath⟩

/-- What holds before the first fetch and is kept by every action holds in every state of a
run. -/
theorem Logged.run_inv {k : DepKnobs} {I : Logged → Prop} (h : I Logged.start)
    (hstep : ∀ x x' a, I x → x.step k a = some x' → I x') {acts : List DepAct} {x : Logged}
    (hrun : Logged.start.run k acts = some x) : I x :=
  Ensures.foldlM (f := Logged.step k) acts Logged.start h
    (fun y hy a _ y' hs => hstep y y' a hy hs) x hrun

/-- Every run keeps the books right. -/
theorem UopBooks.run {k : DepKnobs} {acts : List DepAct} {x : Logged}
    (hrun : Logged.start.run k acts = some x) : UopBooks x :=
  Logged.run_inv UopBooks.start (fun _ _ _ h hs => h.step hs) hrun

end MacSim.Analysis
