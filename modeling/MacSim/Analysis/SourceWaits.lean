import MacSim.Analysis.IssueOrder

/-!
# Waiting for producers

Along every run whose fetches record the stores that were selected for them, a uop that
reaches `exec_c::exec` has the most recent writers of its source registers and its selected
stores done or retired.  The sources are pointers to pooled objects: a source whose object was
freed fails the test on the number or the thread, and a source whose object was not freed is
waited for until its done cycle has come.
-/

set_option autoImplicit false

namespace MacSim.Analysis

open MacSim.Model MacSim.Computation

/-! ## Waiting for producers -/

/-- The uop in an object is done. -/
def Done (s : DepCore) (p : UopPtr) : Prop :=
  (s.heap p).doneCycle ≠ 0 ∧ (s.heap p).doneCycle ≤ s.cycle

/-- The uop of a thread with a given object and number is done or retired. -/
def SourceSettled (x : Logged) (tid : ℕ) (dep : UopPtr × ℕ) : Prop :=
  ∃ w ∈ x.log, w.uop = dep.1 ∧ w.num = dep.2 ∧ w.tid = tid ∧
    (w.retired = true ∨ Done x.core w.uop)

/-- The uops that a uop has to wait for. -/
def Fetched.deps (r : Fetched) : List (UopPtr × ℕ) := r.producers ++ r.stores

/-- What an action has to meet.  At a fetch, a source of the new uop that carries the number
of a selected store, at that moment, names that store.  A completion reaches a uop that has
left the scheduler and is not complete yet. -/
def CleanAct (k : DepKnobs) (x : Logged) : DepAct → Prop
  | .fetch tid t =>
      let s := fetchedState k x tid t
      let p := (x.core.newUop tid t).1
      ∀ q ∈ selectedStores k s p, ∀ info ∈ (s.heap p).mapSrcInfo,
        (s.heap info.uop).uopNum = (s.heap q).uopNum →
          info.uop = q ∧ info.uopNum = (s.heap q).uopNum
  | .complete p _ =>
      (x.core.heap p).doneCycle = 0 ∧ p ∉ x.core.waiting ∧ p ∉ x.core.inSched
  | _ => True

/-- What the sources of the uops in flight are good for. -/
structure Waits (x : Logged) : Prop where
  named : ∀ r ∈ live x.log, ∀ dep ∈ r.deps,
    (∃ w ∈ x.log, w.uop = dep.1 ∧ w.num = dep.2 ∧ w.tid = r.tid) ∧
      ∃ info ∈ (x.core.heap r.uop).mapSrcInfo, info.uop = dep.1 ∧ info.uopNum = dep.2
  older : ∀ r ∈ live x.log, ∀ info ∈ (x.core.heap r.uop).mapSrcInfo,
    info.uop ≠ invalidUop → info.uopNum < r.num
  ready : ∀ r ∈ live x.log, (x.core.heap r.uop).srcsRdy = true →
    ∀ info ∈ (x.core.heap r.uop).mapSrcInfo, ∀ w ∈ live x.log,
      w.uop = info.uop → w.num = info.uopNum → w.tid = r.tid → Done x.core w.uop
  queued : ∀ p ∈ x.core.waiting ++ x.core.inSched,
    p ∈ x.core.inFlight ∧ (x.core.heap p).doneCycle = 0
  nodup : (x.core.waiting ++ x.core.inSched).Nodup

/-- At first no uop waits. -/
theorem Waits.start : Waits Logged.start where
  named := fun _ h => (List.not_mem_nil h).elim
  older := fun _ h => (List.not_mem_nil h).elim
  ready := fun _ h => (List.not_mem_nil h).elim
  queued := fun _ h => (List.not_mem_nil h).elim
  nodup := List.nodup_nil

/-- A source that the test of the scheduler lets pass is done, if its uop is in flight. -/
theorem done_of_not_pending {x : Logged} (hb : UopBooks x) {w : Fetched} (hw : w ∈ live x.log)
    {info : SrcInfo} (huop : w.uop = info.uop) (hnum : w.num = info.uopNum)
    (h : x.core.srcPending w.tid info = false) : Done x.core w.uop := by
  have hfixed := hb.fixed w hw
  have hvalid : (x.core.heap w.uop).valid = true := congrArg CoreUop.valid hfixed
  have hn : (x.core.heap w.uop).uopNum = w.num := congrArg CoreUop.uopNum hfixed
  have ht : (x.core.heap w.uop).threadId = w.tid := congrArg CoreUop.threadId hfixed
  unfold DepCore.srcPending at h
  rw [← huop] at h
  simp only [hvalid, hn, hnum, ht, beq_self_eq_true, Bool.true_and, Bool.or_eq_false_iff,
    beq_eq_false_iff_ne, ne_eq, decide_eq_false_iff_not, not_lt] at h
  exact h

/-- A uop that reaches `exec_c::exec` has passed the test of its sources, now or before. -/
theorem srcs_of_execCalled {s : DepCore} {p : UopPtr} {env : SchedEnv}
    (hbogus : (s.heap p).bogus = false)
    (h : (s.uopSchedule p env).1.execCalled = true) :
    (s.heap p).srcsRdy = true ∨
      ∀ info ∈ (s.heap p).mapSrcInfo, s.srcPending (s.heap p).threadId info = false := by
  have hready : (s.checkSrcs p).1 = true := by
    by_contra hno
    have hno : (s.checkSrcs p).1 = false := by simpa using hno
    unfold DepCore.uopSchedule at h
    dsimp only at h
    rw [hbogus] at h
    simp only [Bool.false_eq_true, if_false] at h
    split at h
    · simp [SchedResult.execCalled] at h
    · split at h
      · simp [SchedResult.execCalled] at h
      · rw [hno] at h
        simp [SchedResult.execCalled] at h
  unfold DepCore.checkSrcs at hready
  dsimp only at hready
  split at hready
  · next hr => exact .inl hr
  · split at hready
    · simp at hready
    · next hnone =>
        right
        intro info hinfo
        simpa using List.find?_eq_none.mp hnone info hinfo

/-- In a state where the sources are good, a uop that is issued has its producers settled. -/
theorem Waits.settled {x : Logged} (hb : UopBooks x) (h : Waits x) {r : Fetched}
    (hr : r ∈ live x.log) {env : SchedEnv} (hbogus : r.trace.bogus = false)
    (hexec : (x.core.uopSchedule r.uop env).1.execCalled = true) :
    ∀ dep ∈ r.deps, SourceSettled x r.tid dep := by
  intro dep hdep
  obtain ⟨⟨w, hw, hwu, hwn, hwt⟩, info, hinfo, hiu, hin⟩ := h.named r hr dep hdep
  refine ⟨w, hw, hwu, hwn, hwt, ?_⟩
  by_cases hret : w.retired = true
  · exact .inl hret
  · have hlive : w ∈ live x.log := mem_live.mpr ⟨hw, by simpa using hret⟩
    have hbog : (x.core.heap r.uop).bogus = false :=
      (congrArg CoreUop.bogus (hb.fixed r hr)).trans hbogus
    have htid : (x.core.heap r.uop).threadId = r.tid := congrArg CoreUop.threadId (hb.fixed r hr)
    right
    rcases srcs_of_execCalled hbog hexec with hrdy | hall
    · exact h.ready r hr hrdy info hinfo w hlive (hwu.trans hiu.symm) (hwn.trans hin.symm) hwt
    · refine done_of_not_pending hb hlive (hwu.trans hiu.symm) (hwn.trans hin.symm) ?_
      rw [hwt, ← htid]
      exact hall info hinfo

/-! ## One action -/

/-- What an attempt to issue the uop `p` may change. -/
structure Attempted (s s' : DepCore) (p : UopPtr) : Prop where
  frame : ∀ q, q ≠ p → s'.heap q = s.heap q
  srcs : (s'.heap p).mapSrcInfo = (s.heap p).mapSrcInfo
  ready : (s'.heap p).srcsRdy = true → (s.heap p).srcsRdy = true ∨
    ∀ info ∈ (s.heap p).mapSrcInfo, s.srcPending (s.heap p).threadId info = false
  cycle : s'.cycle = s.cycle
  waiting : s'.waiting = s.waiting
  inFlight : s'.inFlight = s.inFlight
  done : (s'.inSched = s.inSched ∧ (s'.heap p).doneCycle = (s.heap p).doneCycle) ∨
    s'.inSched = s.inSched.erase p

/-- An attempt that does nothing is an attempt. -/
theorem Attempted.refl (s : DepCore) (p : UopPtr) : Attempted s s p :=
  ⟨fun _ _ => rfl, rfl, .inl, rfl, rfl, rfl, .inl ⟨rfl, rfl⟩⟩

/-- Checking the sources of a uop is part of an attempt to issue it. -/
theorem checkSrcs_attempted (s : DepCore) (p : UopPtr) : Attempted s (s.checkSrcs p).2 p := by
  have hset : ∀ u : CoreUop, u.mapSrcInfo = (s.heap p).mapSrcInfo →
      u.doneCycle = (s.heap p).doneCycle →
      (u.srcsRdy = true → (s.heap p).srcsRdy = true ∨
        ∀ info ∈ (s.heap p).mapSrcInfo, s.srcPending (s.heap p).threadId info = false) →
      Attempted s (s.setUop p u) p := by
    intro u hu hd hr
    refine ⟨fun q hq => by simp [hq], by simpa using hu, by simpa using hr, rfl, rfl, rfl, ?_⟩
    exact .inl ⟨rfl, by simpa using hd⟩
  unfold DepCore.checkSrcs
  dsimp only
  split
  · exact Attempted.refl s p
  · next hno =>
      split
      · have hite : ∀ (c : Prop) [Decidable c] (s₁ : DepCore), Attempted s s₁ p →
            Attempted s (if c then s₁ else s) p := by
          intro c _ s₁ h
          split
          · exact h
          · exact Attempted.refl s p
        exact hite _ _ (hset _ rfl rfl fun h => absurd h hno)
      · next hnone =>
          refine hset _ rfl rfl fun _ => .inr fun info hinfo => ?_
          simpa using List.find?_eq_none.mp hnone info hinfo

/-- Scheduling a uop is an attempt to issue it. -/
theorem uopSchedule_attempted (s : DepCore) (p : UopPtr) (env : SchedEnv) :
    Attempted s (s.uopSchedule p env).2 p := by
  have hsrc : Attempted s (if (s.heap p).bogus then (true, s) else s.checkSrcs p).2 p := by
    split
    · exact Attempted.refl s p
    · exact checkSrcs_attempted s p
  have hsched : (if (s.heap p).bogus then (true, s) else s.checkSrcs p).2.inSched =
      s.inSched := by
    split
    · rfl
    · unfold DepCore.checkSrcs
      dsimp only
      split
      · rfl
      · split
        · rw [apply_ite DepCore.inSched]
          exact ite_self _
        · rfl
  unfold DepCore.uopSchedule
  dsimp only
  generalize (if (s.heap p).bogus then (true, s) else s.checkSrcs p) = r at hsrc hsched ⊢
  obtain ⟨ready, s₁⟩ := r
  split
  · exact Attempted.refl s p
  · split
    · exact Attempted.refl s p
    · split
      · exact hsrc
      · split
        · exact hsrc
        · split
          · exact hsrc
          · split
            · unfold DepCore.execUop
              split
              · exact ⟨hsrc.frame, hsrc.srcs, hsrc.ready, hsrc.cycle, hsrc.waiting,
                  hsrc.inFlight, .inr (by rw [← hsched])⟩
              · refine ⟨fun q hq => ?_, ?_, ?_, hsrc.cycle, hsrc.waiting, hsrc.inFlight,
                  .inr (by rw [← hsched])⟩
                · simpa [hq] using hsrc.frame q hq
                · simpa using hsrc.srcs
                · simpa using hsrc.ready
            · exact hsrc

/-- An action that leaves the log alone keeps the sources good if it forgets no source, marks
a uop ready only after the test of its sources, and does not undo a done uop. -/
theorem Waits.same_log {x : Logged} {s : DepCore} (hb : UopBooks x) (h : Waits x)
    (hsrcs : ∀ r ∈ live x.log, (s.heap r.uop).mapSrcInfo = (x.core.heap r.uop).mapSrcInfo)
    (hready : ∀ r ∈ live x.log, (s.heap r.uop).srcsRdy = true →
      (x.core.heap r.uop).srcsRdy = true ∨ ∀ info ∈ (x.core.heap r.uop).mapSrcInfo,
        x.core.srcPending (x.core.heap r.uop).threadId info = false)
    (hdone : ∀ w ∈ live x.log, Done x.core w.uop → Done s w.uop)
    (hqueued : ∀ p ∈ s.waiting ++ s.inSched, p ∈ s.inFlight ∧ (s.heap p).doneCycle = 0)
    (hnodup : (s.waiting ++ s.inSched).Nodup) : Waits ⟨s, x.log⟩ where
  named := by
    intro r hr dep hdep
    obtain ⟨hw, info, hinfo, hnamed⟩ := h.named r hr dep hdep
    exact ⟨hw, info, hsrcs r hr ▸ hinfo, hnamed⟩
  older := fun r hr info hinfo => h.older r hr info (hsrcs r hr ▸ hinfo)
  ready := by
    intro r hr hrdy info hinfo w hw hwu hwn hwt
    have hinfo' : info ∈ (x.core.heap r.uop).mapSrcInfo := hsrcs r hr ▸ hinfo
    refine hdone w hw ?_
    rcases hready r hr hrdy with hold | hall
    · exact h.ready r hr hold info hinfo' w hw hwu hwn hwt
    · have htid : (x.core.heap r.uop).threadId = r.tid :=
        congrArg CoreUop.threadId (hb.fixed r hr)
      refine done_of_not_pending hb hw hwu hwn ?_
      rw [hwt, ← htid]
      exact hall info hinfo'
  queued := hqueued
  nodup := hnodup

/-- The stores that are selected for a load are the visible ones the analysis selects. -/
theorem selectedStores_eq {k : DepKnobs} {x : Logged} (hb : UopBooks x) (hh : HashBooks x) (tid : ℕ)
    (t : TraceUop) {q : UopPtr}
    (hq : q ∈ selectedStores k (fetchedState k x tid t) (x.core.newUop tid t).1) :
    selectedStores k (fetchedState k x tid t) (x.core.newUop tid t).1 =
      (selected k x.log tid t).map (·.uop) := by
  have hfixed := (hb.fetched (k := k) tid t).2.1
  set p := (x.core.newUop tid t).1
  have htid : ((fetchedState k x tid t).heap p).threadId = tid := congrArg CoreUop.threadId hfixed
  have hva : ((fetchedState k x tid t).heap p).vaddr = t.vaddr := congrArg CoreUop.vaddr hfixed
  have hsize : ((fetchedState k x tid t).heap p).memSize = t.memSize :=
    congrArg CoreUop.memSize hfixed
  have hoff : ((fetchedState k x tid t).heap p).offPath = false :=
    congrArg CoreUop.offPath hfixed
  unfold selectedStores at hq ⊢
  dsimp only at hq ⊢
  rw [htid, hva, hsize, hoff] at hq ⊢
  split at hq
  · next hk =>
      rw [if_pos hk]
      cases hd : (fetchedState k x tid t).coreMapData tid with
      | none => simp [hd] at hq
      | some d =>
          cases he : d.oracleMemHash (memMapKey t.vaddr false) with
          | none => simp [hd, he] at hq
          | some e => simp [he, (hh.view hb tid t hd he).storeDeps k]
  · simp at hq

/-- A selected store is a live store of the thread, and the object still carries its number. -/
theorem selectedStores_live {k : DepKnobs} {x : Logged} (hb : UopBooks x) (hh : HashBooks x)
    (tid : ℕ) (t : TraceUop) {q : UopPtr}
    (hq : q ∈ selectedStores k (fetchedState k x tid t) (x.core.newUop tid t).1) :
    ∃ w ∈ selected k x.log tid t, w.uop = q ∧ w ∈ live x.log ∧ w.tid = tid ∧
      ((fetchedState k x tid t).heap q).uopNum = w.num := by
  have hq' := hq
  rw [selectedStores_eq hb hh tid t hq] at hq'
  obtain ⟨w, hw, rfl⟩ := List.mem_map.mp hq'
  obtain ⟨hlive, htid, -⟩ := visibleAt_eq_some (mem_visibleIn.mp (selected_visible hw)).1
  exact ⟨w, hw, rfl, hlive, by exact_mod_cast htid,
    congrArg CoreUop.uopNum ((hb.fetched (k := k) tid t).1 w hlive)⟩

/-- A fetch writes the objects of the new uop only. -/
theorem fetch_frame {k : DepKnobs} {x : Logged} (hb : UopBooks x) (tid : ℕ) (t : TraceUop) {r : Fetched}
    (hr : r ∈ live x.log) : (fetchedState k x tid t).heap r.uop = x.core.heap r.uop := by
  obtain ⟨cs, -, -, hframe, -, -, -, -, -, -, -, ho⟩ := newUop_spec hb.owns tid t
  have hapart := (List.nodup_append.mp (List.nodup_append.mp ho.nodup).2.1).2.2
  have hobj : r.uop ∈ (live x.log).flatMap Fetched.objects :=
    List.mem_flatMap.mpr ⟨r, hr, List.mem_cons_self⟩
  have hp : r.uop ≠ (x.core.newUop tid t).1 := fun h =>
    hapart _ (by simp) r.uop hobj h.symm
  have hc : r.uop ∉ cs := fun h => hapart r.uop (by simp [h]) r.uop hobj rfl
  rw [← hframe r.uop hp hc]
  simp [fetchedState, mapped, hp]

/-- The sources of a new uop name everything it has to wait for, and only older uops. -/
theorem fetched_sources {k : DepKnobs} {x : Logged} (hb : UopBooks x) (hr : RegBooks x)
    (hh : k.memObeyStoreDep = true → HashBooks x) {tid : ℕ} {t : TraceUop}
    (hclean : CleanAct k x (.fetch tid t)) {mem : List SrcInfo}
    (hadd : Added (fetchedState k x tid t).heap
      ((fetchedState k x tid t).heap (x.core.newUop tid t).1).mapSrcInfo mem
      (selectedStores k (fetchedState k x tid t) (x.core.newUop tid t).1)) :
    (∀ dep ∈ (Logged.entry k x tid t).deps,
      (∃ w ∈ x.log, w.uop = dep.1 ∧ w.num = dep.2 ∧ w.tid = tid) ∧
        ∃ info ∈ ((fetchedState k x tid t).heap (x.core.newUop tid t).1).mapSrcInfo ++ mem,
          info.uop = dep.1 ∧ info.uopNum = dep.2) ∧
      ∀ info ∈ ((fetchedState k x tid t).heap (x.core.newUop tid t).1).mapSrcInfo ++ mem,
        info.uop ≠ invalidUop → info.uopNum < x.core.uopCount tid := by
  -- the stores are selected only if store dependences are obeyed
  have hobey : ∀ {q}, q ∈ selectedStores k (fetchedState k x tid t) (x.core.newUop tid t).1 →
      HashBooks x := by
    intro q hq
    apply hh
    by_contra hno
    simp [selectedStores, hno] at hq
  have hsrcs := fetchedState_sources (k := k) hb hr tid t
  refine ⟨?_, ?_⟩
  · intro dep hdep
    rcases List.mem_append.mp hdep with hprod | hstore
    · obtain ⟨id, hid, hmap⟩ := List.mem_filterMap.mp hprod
      obtain ⟨w, hw, rfl⟩ := Option.map_eq_some_iff.mp hmap
      obtain ⟨hmem, hmatch⟩ := lastMatch_mem hw
      simp only [Bool.and_eq_true, beq_iff_eq] at hmatch
      refine ⟨⟨w, hmem, rfl, rfl, hmatch.1⟩, ⟨.regDataDep, w.uop, w.num⟩, ?_, rfl, rfl⟩
      refine List.mem_append_left _ ?_
      rw [hsrcs]
      refine List.mem_append_left _ (List.mem_map.mpr ⟨id, hid, ?_⟩)
      rw [hw]
      rfl
    · obtain ⟨q, hq, rfl⟩ := List.mem_map.mp hstore
      have hh' := hobey hq
      obtain ⟨w, hsel, rfl, hlive, htid, hnum⟩ := selectedStores_live hb hh' tid t hq
      refine ⟨⟨w, (mem_live.mp hlive).1, rfl, hnum.symm, htid⟩, ?_⟩
      rw [selectedStores_eq hb hh' tid t hq] at hadd
      show ∃ info ∈ ((fetchedState k x tid t).heap (x.core.newUop tid t).1).mapSrcInfo ++ mem,
        info.uop = w.uop ∧ info.uopNum = ((fetchedState k x tid t).heap w.uop).uopNum
      rw [hnum]
      refine (named_iff_recorded hb hsel hadd).mpr ?_
      by_cases hsome : ∃ info ∈
          ((fetchedState k x tid t).heap (x.core.newUop tid t).1).mapSrcInfo,
          ((fetchedState k x tid t).heap info.uop).uopNum = w.num
      · obtain ⟨info, hinfo, hn⟩ := hsome
        have hname := hclean w.uop hq info hinfo (hn.trans hnum.symm)
        exact .inr ⟨info, hinfo, hname.1, hname.2.trans hnum⟩
      · exact .inl fun info hinfo hn => hsome ⟨info, hinfo, hn⟩
  · intro info hinfo hne
    rcases List.mem_append.mp hinfo with hold | hnew
    · rw [hsrcs] at hold
      rcases List.mem_append.mp hold with hreg | hlast
      · obtain ⟨id, -, rfl⟩ := List.mem_map.mp hreg
        cases hw : producer x.log tid id with
        | none => simp [hw, entryOf] at hne
        | some w =>
            obtain ⟨hmem, hmatch⟩ := lastMatch_mem hw
            simp only [Bool.and_eq_true, beq_iff_eq] at hmatch
            have hlt := hb.counted w hmem
            rw [hmatch.1] at hlt
            exact hlt
      · unfold lastStoreSources at hlast
        split at hlast
        · obtain rfl := List.mem_singleton.mp hlast
          exact absurd rfl hne
        · simp at hlast
    · obtain ⟨q, hq, rfl, -⟩ := hadd.new info hnew
      obtain ⟨w, -, rfl, hlive, htid, hnum⟩ := selectedStores_live hb (hobey hq) tid t hq
      have hlt := hb.counted w (mem_live.mp hlive).1
      rw [htid] at hlt
      exact hnum ▸ hlt

/-- A clean fetch keeps the waiting uops behind their producers. -/
theorem Waits.fetch {k : DepKnobs} (hdep : k.ignoreDep = false) {x : Logged} {tid : ℕ}
    {t : TraceUop} {s' : DepCore} (hb : UopBooks x) (hr : RegBooks x)
    (hh : k.memObeyStoreDep = true → HashBooks x) (h : Waits x)
    (hclean : CleanAct k x (.fetch tid t)) (hs : x.core.fetch k tid t = some s') :
    Waits ⟨s', x.log ++ [Logged.entry k x tid t]⟩ := by
  obtain ⟨s₂, h₂, rfl⟩ := fetch_eq hdep hs
  obtain ⟨mem, data, hadd, rfl⟩ := mapMemDep_eq h₂
  obtain ⟨hnamed, holder⟩ := fetched_sources hb hr hh hclean hadd
  obtain ⟨cs, -, hself, -, -, -, -, hin, hwait, hsched, hcyc, -⟩ := newUop_spec hb.owns tid t
  have hnew := (hb.fetched (k := k) tid t).2.2
  have hframe : ∀ r ∈ live x.log, _ := fun r hr => fetch_frame (k := k) hb tid t hr
  have hdone₀ : ((fetchedState k x tid t).heap (x.core.newUop tid t).1).doneCycle = 0 := by
    have hzero := congrArg CoreUop.doneCycle hself
    simpa [fetchedState, mapped, DepCore.uopOfTrace, CoreUop.init] using hzero
  have hrdy₀ : ((fetchedState k x tid t).heap (x.core.newUop tid t).1).srcsRdy = false := by
    have hfalse := congrArg CoreUop.srcsRdy hself
    simpa [fetchedState, mapped, DepCore.uopOfTrace, CoreUop.init] using hfalse
  set p := (x.core.newUop tid t).1 with hp
  set s := fetchedState k x tid t with hsdef
  let r₀ := Logged.entry k x tid t
  have hlive : live (x.log ++ [r₀]) = live x.log ++ [r₀] := by
    rw [live_append]
    rfl
  have hwaiting : s.waiting = x.core.waiting := hwait
  have hinSched : s.inSched = x.core.inSched := hsched
  have hinFlight : s.inFlight = x.core.inFlight := hin
  have hcycle : s.cycle = x.core.cycle := hcyc
  let heap := Function.update s.heap p
    { s.heap p with mapSrcInfo := (s.heap p).mapSrcInfo ++ mem }
  have hold : ∀ r ∈ live x.log, heap r.uop = x.core.heap r.uop := by
    intro r hr
    rw [← hframe r hr]
    exact Function.update_of_ne (hnew r hr) _ _
  have hheap₀ : heap p = { s.heap p with mapSrcInfo := (s.heap p).mapSrcInfo ++ mem } :=
    Function.update_self _ _ _
  refine ⟨?_, ?_, ?_, ?_, ?_⟩
  · rw [hlive]
    intro r hr dep hdep
    rcases List.mem_append.mp hr with hr | hr
    · obtain ⟨⟨w, hw, hwd⟩, info, hinfo, hid⟩ := h.named r hr dep hdep
      refine ⟨⟨w, List.mem_append_left _ hw, hwd⟩, info, ?_, hid⟩
      show info ∈ (heap r.uop).mapSrcInfo
      rw [hold r hr]
      exact hinfo
    · obtain rfl := List.mem_singleton.mp hr
      obtain ⟨⟨w, hw, hwd⟩, info, hinfo, hid⟩ := hnamed dep hdep
      refine ⟨⟨w, List.mem_append_left _ hw, hwd⟩, info, ?_, hid⟩
      show info ∈ (heap p).mapSrcInfo
      rw [hheap₀]
      exact hinfo
  · rw [hlive]
    intro r hr info hinfo
    rcases List.mem_append.mp hr with hr | hr
    · refine h.older r hr info ?_
      rw [← hold r hr]
      exact hinfo
    · obtain rfl := List.mem_singleton.mp hr
      refine holder info ?_
      have hinfo' : info ∈ (heap p).mapSrcInfo := hinfo
      rw [hheap₀] at hinfo'
      exact hinfo'
  · rw [hlive]
    intro r hr hrdy info hinfo w hw hwu hwn hwt
    rcases List.mem_append.mp hr with hr | hr
    · have hrdy' : (x.core.heap r.uop).srcsRdy = true := hold r hr ▸ hrdy
      have hinfo' : info ∈ (x.core.heap r.uop).mapSrcInfo := hold r hr ▸ hinfo
      rcases List.mem_append.mp hw with hw | hw
      · have hd := h.ready r hr hrdy' info hinfo' w hw hwu hwn hwt
        show (heap w.uop).doneCycle ≠ 0 ∧ (heap w.uop).doneCycle ≤ s.cycle
        rw [hold w hw, hcycle]
        exact hd
      · -- an older uop has no source with the number of the new one
        obtain rfl := List.mem_singleton.mp hw
        have hne : info.uop ≠ invalidUop := by
          rw [← hwu]
          have hb' := hb.newUop (k := k) tid t
          exact hb'.object r₀ (by simp [r₀])
        have hlt := h.older r hr info hinfo' hne
        have hcount := hb.counted r (mem_live.mp hr).1
        rw [← hwt] at hcount
        have hnum : x.core.uopCount tid = info.uopNum := hwn
        have : r.num < x.core.uopCount tid := hcount
        omega
    · obtain rfl := List.mem_singleton.mp hr
      have hrdy' : (heap p).srcsRdy = true := hrdy
      rw [hheap₀] at hrdy'
      simp [hrdy₀] at hrdy'
  · intro q hq
    have hq' : q ∈ x.core.waiting ++ [p] ++ x.core.inSched := by
      rw [← hwaiting, ← hinSched]
      exact hq
    have hcase : q ∈ x.core.waiting ++ x.core.inSched ∨ q = p := by
      simp only [List.mem_append, List.mem_singleton] at hq' ⊢
      tauto
    show q ∈ s.inFlight ++ [p] ∧ (heap q).doneCycle = 0
    rcases hcase with hq | rfl
    · obtain ⟨hf, hd⟩ := h.queued q hq
      refine ⟨List.mem_append_left _ (hinFlight ▸ hf), ?_⟩
      rw [hb.inFlight] at hf
      obtain ⟨r, hr, rfl⟩ := List.mem_map.mp hf
      rw [hold r hr]
      exact hd
    · refine ⟨List.mem_append_right _ (List.mem_singleton_self _), ?_⟩
      rw [hheap₀]
      exact hdone₀
  · show ((s.waiting ++ [p]) ++ s.inSched).Nodup
    rw [hwaiting, hinSched]
    have hout : p ∉ x.core.waiting ++ x.core.inSched := by
      intro hmem
      have hf := (h.queued p hmem).1
      rw [hb.inFlight] at hf
      obtain ⟨r, hr, he⟩ := List.mem_map.mp hf
      exact hnew r hr he
    have hperm : (p :: (x.core.waiting ++ x.core.inSched)).Perm
        (x.core.waiting ++ [p] ++ x.core.inSched) := by
      simpa using List.perm_middle.symm
    exact hperm.nodup_iff.mp (List.nodup_cons.mpr ⟨hout, h.nodup⟩)

/-- Writing the done cycle of a uop that has none does not undo a done uop. -/
theorem done_write {s s' : DepCore} {p : UopPtr} (hframe : ∀ q, q ≠ p → s'.heap q = s.heap q)
    (hcycle : s'.cycle = s.cycle) (hzero : (s.heap p).doneCycle = 0) {q : UopPtr}
    (h : Done s q) : Done s' q := by
  by_cases hq : q = p
  · subst hq
    exact absurd hzero h.1
  · unfold Done
    rw [hframe q hq, hcycle]
    exact h

/-- Advancing a uop keeps the waiting uops behind their producers. -/
theorem Waits.advance {x : Logged} {p : UopPtr} (hb : UopBooks x) (h : Waits x)
    (hp : p ∈ x.core.waiting) : Waits ⟨x.core.advance p, x.log⟩ := by
  have hzero := (h.queued p (List.mem_append_left _ hp)).2
  have hw := List.nodup_append.mp h.nodup
  have herase : ∀ q, q ∈ x.core.waiting.erase p → q ∈ x.core.waiting ∧ q ≠ p := fun q hq =>
    ⟨List.mem_of_mem_erase hq, fun he => (List.Nodup.mem_erase_iff hw.1).mp hq |>.1 he⟩
  unfold DepCore.advance
  dsimp only
  split
  · refine h.same_log hb ?_ ?_ ?_ ?_ ?_
    · intro r _
      by_cases hr : r.uop = p
      · simp [hr]
      · simp [hr]
    · intro r _ hrdy
      left
      by_cases hr : r.uop = p
      · simpa [hr] using hrdy
      · simpa [hr] using hrdy
    · intro w _ hd
      refine done_write (p := p) ?_ ?_ hzero hd
      · intro q hq
        simp [hq]
      · rfl
    · intro q hq
      have hq' : q ∈ x.core.waiting.erase p ++ x.core.inSched := hq
      have hne : q ≠ p := by
        rcases List.mem_append.mp hq' with hq' | hq'
        · exact (herase q hq').2
        · exact fun he => hw.2.2 p hp q hq' he.symm
      have hmem : q ∈ x.core.waiting ++ x.core.inSched := by
        rcases List.mem_append.mp hq' with hq' | hq'
        · exact List.mem_append_left _ (herase q hq').1
        · exact List.mem_append_right _ hq'
      have hold := h.queued q hmem
      exact ⟨hold.1, by simpa [hne] using hold.2⟩
    · show (x.core.waiting.erase p ++ x.core.inSched).Nodup
      exact h.nodup.sublist (List.Sublist.append_right List.erase_sublist _)
  · refine h.same_log hb (fun _ _ => rfl) (fun _ _ => .inl) (fun _ _ hd => hd) ?_ ?_
    · intro q hq
      refine h.queued q ?_
      have hq' : q ∈ x.core.waiting.erase p ++ (x.core.inSched ++ [p]) := hq
      simp only [List.mem_append, List.mem_singleton] at hq' ⊢
      rcases hq' with hq' | hq' | rfl
      · exact .inl (herase q hq').1
      · exact .inr hq'
      · exact .inl hp
    · show (x.core.waiting.erase p ++ (x.core.inSched ++ [p])).Nodup
      have hperm : (x.core.waiting ++ x.core.inSched).Perm
          (x.core.waiting.erase p ++ (x.core.inSched ++ [p])) := by
        refine (List.Perm.append_right _ (List.perm_cons_erase hp)).trans ?_
        rw [← List.append_assoc]
        exact (List.perm_append_singleton p _).symm
      exact hperm.nodup_iff.mp h.nodup

/-- Scheduling a uop keeps the waiting uops behind their producers. -/
theorem Waits.schedule {x : Logged} {p : UopPtr} (hb : UopBooks x) (h : Waits x)
    (hp : p ∈ x.core.inSched) (env : SchedEnv) :
    Waits ⟨(x.core.uopSchedule p env).2, x.log⟩ := by
  have a := uopSchedule_attempted x.core p env
  have hzero := (h.queued p (List.mem_append_right _ hp)).2
  have hw := List.nodup_append.mp h.nodup
  refine h.same_log hb ?_ ?_ ?_ ?_ ?_
  · intro r _
    by_cases hr : r.uop = p
    · rw [hr]
      exact a.srcs
    · rw [a.frame r.uop hr]
  · intro r _ hrdy
    by_cases hr : r.uop = p
    · rw [hr] at hrdy ⊢
      exact a.ready hrdy
    · rw [a.frame r.uop hr] at hrdy
      exact .inl hrdy
  · intro w _ hd
    exact done_write a.frame a.cycle hzero hd
  · intro q hq
    rw [a.waiting] at hq
    rw [a.inFlight]
    rcases a.done with ⟨hsame, hdone⟩ | herase
    · rw [hsame] at hq
      have hold := h.queued q hq
      refine ⟨hold.1, ?_⟩
      by_cases hqp : q = p
      · rw [hqp, hdone]
        exact hzero
      · rw [a.frame q hqp]
        exact hold.2
    · rw [herase] at hq
      have hne : q ≠ p := by
        rcases List.mem_append.mp hq with hq | hq
        · exact fun he => hw.2.2 q hq p hp he
        · exact ((List.Nodup.mem_erase_iff hw.2.1).mp hq).1
      have hmem : q ∈ x.core.waiting ++ x.core.inSched := by
        rcases List.mem_append.mp hq with hq | hq
        · exact List.mem_append_left _ hq
        · exact List.mem_append_right _ (List.mem_of_mem_erase hq)
      have hold := h.queued q hmem
      exact ⟨hold.1, by rw [a.frame q hne]; exact hold.2⟩
  · rw [a.waiting]
    rcases a.done with ⟨hsame, -⟩ | herase
    · rw [hsame]
      exact h.nodup
    · rw [herase]
      exact h.nodup.sublist (List.Sublist.append_left List.erase_sublist _)

/-- A clean completion keeps the waiting uops behind their producers. -/
theorem Waits.complete {x : Logged} {p : UopPtr} {cycle : ℕ} {k : DepKnobs} (hb : UopBooks x)
    (h : Waits x) (hclean : CleanAct k x (.complete p cycle)) :
    Waits ⟨x.core.setUop p { x.core.heap p with doneCycle := cycle }, x.log⟩ := by
  obtain ⟨hzero, hw, hs⟩ := hclean
  refine h.same_log hb ?_ ?_ ?_ ?_ h.nodup
  · intro r _
    by_cases hr : r.uop = p
    · simp [hr]
    · simp [hr]
  · intro r _ hrdy
    left
    by_cases hr : r.uop = p
    · simpa [hr] using hrdy
    · simpa [hr] using hrdy
  · intro w _ hd
    refine done_write (p := p) ?_ ?_ hzero hd
    · intro q hq
      simp [hq]
    · rfl
  · intro q hq
    have hold := h.queued q hq
    have hne : q ≠ p := by
      rintro rfl
      rcases List.mem_append.mp hq with hq | hq
      · exact hw hq
      · exact hs hq
    exact ⟨hold.1, by simpa [hne] using hold.2⟩

/-- Freeing uops leaves the queues alone. -/
theorem freeAll_queues (k : DepKnobs) (cs : List UopPtr) (s : DepCore) :
    (freeAll k s cs).waiting = s.waiting ∧ (freeAll k s cs).inSched = s.inSched := by
  have hdel : ∀ (s : DepCore) (p : UopPtr),
      (s.deleteStoreHashEntry k p).waiting = s.waiting ∧
        (s.deleteStoreHashEntry k p).inSched = s.inSched := by
    intro s p
    unfold DepCore.deleteStoreHashEntry
    dsimp only
    split
    · exact ⟨rfl, rfl⟩
    · split
      · exact ⟨rfl, rfl⟩
      · split
        · exact ⟨rfl, rfl⟩
        · split <;> exact ⟨rfl, rfl⟩
  have hfree : ∀ (s : DepCore) (p : UopPtr),
      (s.free k p).waiting = s.waiting ∧ (s.free k p).inSched = s.inSched := by
    intro s p
    unfold DepCore.free
    dsimp only
    split
    · exact hdel _ p
    · exact ⟨rfl, rfl⟩
  induction cs generalizing s with
  | nil => exact ⟨rfl, rfl⟩
  | cons c cs ih =>
      obtain ⟨hw, hs⟩ := ih ((s.free k c).releaseEntry c)
      exact ⟨hw.trans (hfree s c).1, hs.trans (hfree s c).2⟩

/-- Retiring a uop that has been issued keeps the waiting uops behind their producers. -/
theorem Waits.retire {k : DepKnobs} {x : Logged} {p : UopPtr} (hb : UopBooks x) (h : Waits x)
    (hp : p ∈ x.core.inFlight) (hwait : p ∉ x.core.waiting) (hsched : p ∉ x.core.inSched) :
    Waits ⟨{ x.core.freeUopResources k p with inFlight := x.core.inFlight.erase p },
      x.log.map (Logged.retireEntry p)⟩ := by
  rw [hb.inFlight] at hp
  obtain ⟨r₀, hr₀, rfl⟩ := List.mem_map.mp hp
  have hchildren : (x.core.heap r₀.uop).childUops = r₀.children :=
    congrArg CoreUop.childUops (hb.fixed r₀ hr₀)
  obtain ⟨-, hheap, -, -, -, hcycle⟩ := freeAll_spec k _ (hb.owns_split hr₀)
  obtain ⟨hw, hs⟩ := freeAll_queues k (r₀.children ++ [r₀.uop]) x.core
  rw [freeUopResources_eq, hchildren]
  -- the objects of the other uops in flight are not touched
  have hframe : ∀ r ∈ live x.log, r.uop ≠ r₀.uop →
      (freeAll k x.core (r₀.children ++ [r₀.uop])).heap r.uop = x.core.heap r.uop := by
    intro r hr hne
    refine hheap r.uop fun hmem => ?_
    rcases List.mem_append.mp hmem with hc | hself
    · exact hb.child_apart hr₀ hc hr rfl
    · exact hne (List.mem_singleton.mp hself)
  have hlive : ∀ r ∈ live (x.log.map (Logged.retireEntry r₀.uop)),
      r ∈ live x.log ∧ r.uop ≠ r₀.uop := by
    intro r hr
    rw [live_retire] at hr
    exact ⟨(List.mem_filter.mp hr).1, by simpa using (List.mem_filter.mp hr).2⟩
  refine ⟨?_, ?_, ?_, ?_, ?_⟩
  · intro r hr dep hdep
    obtain ⟨hr, hne⟩ := hlive r hr
    obtain ⟨⟨w, hw, hwd⟩, info, hinfo, hid⟩ := h.named r hr dep hdep
    refine ⟨⟨Logged.retireEntry r₀.uop w, List.mem_map_of_mem hw, by simpa using hwd⟩, info, ?_, hid⟩
    rw [← hframe r hr hne] at hinfo
    exact hinfo
  · intro r hr info hinfo
    obtain ⟨hr, hne⟩ := hlive r hr
    refine h.older r hr info ?_
    rw [← hframe r hr hne]
    exact hinfo
  · intro r hr hrdy info hinfo w hw hwu hwn hwt
    obtain ⟨hr, hne⟩ := hlive r hr
    obtain ⟨hw, hwne⟩ := hlive w hw
    have hrdy' : (x.core.heap r.uop).srcsRdy = true := hframe r hr hne ▸ hrdy
    have hinfo' : info ∈ (x.core.heap r.uop).mapSrcInfo := hframe r hr hne ▸ hinfo
    have hd := h.ready r hr hrdy' info hinfo' w hw hwu hwn hwt
    unfold Done at hd ⊢
    dsimp only
    rw [hframe w hw hwne, hcycle]
    exact hd
  · intro q hq
    have hq' : q ∈ x.core.waiting ++ x.core.inSched := by
      rw [← hw, ← hs]
      exact hq
    have hne : q ≠ r₀.uop := by
      rintro rfl
      rcases List.mem_append.mp hq' with hq | hq
      · exact hwait hq
      · exact hsched hq
    obtain ⟨hf, hd⟩ := h.queued q hq'
    refine ⟨(List.mem_erase_of_ne hne).mpr hf, ?_⟩
    rw [hb.inFlight] at hf
    obtain ⟨r, hr, rfl⟩ := List.mem_map.mp hf
    exact (congrArg CoreUop.doneCycle (hframe r hr hne)).trans hd
  · show ((freeAll k x.core (r₀.children ++ [r₀.uop])).waiting ++
      (freeAll k x.core (r₀.children ++ [r₀.uop])).inSched).Nodup
    rw [hw, hs]
    exact h.nodup

/-- A thread that ends takes along only what its own uops waited for. -/
theorem Waits.endThread {x : Logged} {tid : ℕ} {s : DepCore} (h : Waits x)
    (hother : ∀ r ∈ live x.log, r.tid ≠ tid) (hheap : s.heap = x.core.heap)
    (hcycle : s.cycle = x.core.cycle) (hw : s.waiting = x.core.waiting)
    (hs : s.inSched = x.core.inSched) (hf : s.inFlight = x.core.inFlight) :
    Waits ⟨s, x.log.filter fun r => r.tid ≠ tid⟩ := by
  have hlive : ∀ r ∈ live (x.log.filter fun r => r.tid ≠ tid), r ∈ live x.log := by
    intro r hr
    obtain ⟨hr, hret⟩ := mem_live.mp hr
    exact mem_live.mpr ⟨(List.mem_filter.mp hr).1, hret⟩
  refine ⟨?_, ?_, ?_, ?_, ?_⟩
  · intro r hr dep hdep
    have hr := hlive r hr
    obtain ⟨⟨w, hw, hwd⟩, hinfo⟩ := h.named r hr dep hdep
    have hne : w.tid ≠ tid := fun he => hother r hr (hwd.2.2.symm.trans he)
    refine ⟨⟨w, List.mem_filter.mpr ⟨hw, by simpa using hne⟩, hwd⟩, ?_⟩
    rw [hheap]
    exact hinfo
  · intro r hr info hinfo
    refine h.older r (hlive r hr) info ?_
    rw [← hheap]
    exact hinfo
  · intro r hr hrdy info hinfo w hw
    have hd := h.ready r (hlive r hr) (hheap ▸ hrdy) info (hheap ▸ hinfo) w (hlive w hw)
    intro hwu hwn hwt
    unfold Done at hd ⊢
    rw [hheap, hcycle]
    exact hd hwu hwn hwt
  · rw [hw, hs, hf, hheap]
    exact h.queued
  · rw [hw, hs]
    exact h.nodup

/-- What the runs of a core keep. -/
structure WaitBooks (k : DepKnobs) (x : Logged) : Prop where
  books : UopBooks x
  regs : RegBooks x
  hash : k.memObeyStoreDep = true → HashBooks x
  waits : Waits x

/-- The books are right at the start. -/
theorem WaitBooks.start (k : DepKnobs) : WaitBooks k Logged.start :=
  ⟨UopBooks.start, RegBooks.start, fun _ => HashBooks.start, Waits.start⟩

/-- Each clean step keeps the waiting uops behind their producers. -/
theorem Waits.step {k : DepKnobs} (hdep : k.ignoreDep = false) {x x' : Logged} {a : DepAct}
    (hb : WaitBooks k x) (hclean : CleanAct k x a) (hs : x.step k a = some x') : Waits x' := by
  have h := hb.waits
  unfold Logged.step at hs
  obtain ⟨c, hc, rfl⟩ := Option.map_eq_some_iff.mp hs
  cases a with
  | fetch tid t => exact h.fetch hdep hb.books hb.regs hb.hash hclean hc
  | advance p =>
      dsimp only [DepCore.step] at hc
      split at hc
      · next hp => exact Option.some.inj hc ▸ h.advance hb.books hp
      · simp at hc
  | schedule p env =>
      dsimp only [DepCore.step] at hc
      split at hc
      · next hp => exact Option.some.inj hc ▸ h.schedule hb.books hp env
      · simp at hc
  | complete p cycle =>
      obtain rfl := Option.some.inj hc
      exact h.complete hb.books hclean
  | retire p =>
      dsimp only [DepCore.step] at hc
      split at hc
      · next hp => exact Option.some.inj hc ▸ h.retire hb.books hp.1 hp.2.1 hp.2.2
      · simp at hc
  | endThread tid =>
      dsimp only [DepCore.step] at hc
      split at hc
      · simp at hc
      · next hany =>
          obtain rfl := Option.some.inj hc
          refine h.endThread ?_ rfl rfl rfl rfl rfl
          intro r hr htid
          apply hany
          rw [List.any_eq_true]
          refine ⟨r.uop, hb.books.inFlight ▸ List.mem_map.mpr ⟨r, hr, rfl⟩, ?_⟩
          have hthread : (x.core.heap r.uop).threadId = r.tid :=
            congrArg CoreUop.threadId (hb.books.fixed r hr)
          simp [hthread, htid]
  | tick =>
      obtain rfl := Option.some.inj hc
      refine h.same_log hb.books (fun _ _ => rfl) (fun _ _ => .inl) ?_ h.queued h.nodup
      exact fun w _ hd => ⟨hd.1, Nat.le_succ_of_le hd.2⟩

/-- Each clean step keeps the books right. -/
theorem WaitBooks.step {k : DepKnobs} (hdep : k.ignoreDep = false) {x x' : Logged} {a : DepAct}
    (h : WaitBooks k x) (hclean : CleanAct k x a) (hs : x.step k a = some x') :
    WaitBooks k x' :=
  ⟨h.books.step hs, h.regs.step hdep h.books hs,
    fun hobey => (h.hash hobey).step hdep hobey h.books hs, Waits.step hdep h hclean hs⟩

/-- A run of clean steps keeps the books right. -/
theorem WaitBooks.run {k : DepKnobs} (hdep : k.ignoreDep = false) (acts : List DepAct)
    {x x' : Logged} (h : WaitBooks k x) (hclean : EachStep (Logged.step k) (CleanAct k) x acts)
    (hrun : x.run k acts = some x') : WaitBooks k x' :=
  EachStep.invariant (fun _ _ _ _ hy hact hstep => hy.step hdep hact hstep) h hclean hrun

/-! ## Producers come first -/

/-- In every clean run, a uop that is issued and was not flushed has the most recent writers
of its source registers and its selected stores done or retired. -/
theorem producers_done_at_issue {k : DepKnobs} (hdep : k.ignoreDep = false)
    {acts : List DepAct} {x : Logged} (hrun : Logged.start.run k acts = some x)
    (hclean : EachStep (Logged.step k) (CleanAct k) Logged.start acts) {r : Fetched} (hr : r ∈ live x.log)
    (hbogus : r.trace.bogus = false) {env : SchedEnv}
    (hexec : (x.core.uopSchedule r.uop env).1.execCalled = true) :
    ∀ dep ∈ r.producers ++ r.stores, SourceSettled x r.tid dep := by
  have hb := (WaitBooks.start k).run hdep acts hclean hrun
  exact hb.waits.settled hb.books hr hbogus hexec

/-- A uop that is no memory uop. -/
def regTrace (srcs dests : List ℕ) : TraceUop :=
  { memType := .notMem, vaddr := 0, memSize := 0, bogus := false, srcs := srcs, dests := dests,
    children := [], childSize := 0 }

/-- A uop that reads no memory is fetched cleanly. -/
theorem CleanAct.of_notLoad {k : DepKnobs} {x : Logged} {tid : ℕ} {t : TraceUop}
    (hsel : selectedStores k (fetchedState k x tid t) (x.core.newUop tid t).1 = []) :
    CleanAct k x (.fetch tid t) := by
  intro q hq
  rw [hsel] at hq
  exact (List.not_mem_nil hq).elim

/-- A writer of register 5, a store and a load of the same bytes that reads the register; the first
two are issued and done. -/
def storeThenLoad : List DepAct :=
  [.fetch 0 (regTrace [] [5]), .fetch 0 (memTrace .st 0 8),
    .fetch 0 { memTrace .ld 0 8 with srcs := [5] }, .advance 1, .advance 2, .advance 3, .tick,
    .schedule 1 freeEnv, .schedule 2 freeEnv, .tick]

/-- The fetches are clean: the only source of the load with the number of the store names it. -/
theorem storeThenLoad_clean :
    EachStep (Logged.step defaultMapKnobs) (CleanAct defaultMapKnobs) Logged.start
      storeThenLoad := by
  refine .cons (.of_notLoad rfl) rfl (.cons (.of_notLoad rfl) rfl (.cons ?_ rfl ?_))
  · unfold CleanAct
    decide +kernel
  · exact .cons trivial rfl (.cons trivial rfl (.cons trivial rfl (.cons trivial rfl
      (.cons trivial rfl (.cons trivial rfl (.cons trivial rfl trivial))))))

/-- The load is issued when the writer of its register, in object `1`, and its store, in object
`2`, are done. -/
theorem producers_done_at_issue_load :
    ∃ x, Logged.start.run defaultMapKnobs storeThenLoad = some x ∧
      (x.core.uopSchedule 3 freeEnv).1.execCalled = true ∧
      SourceSettled x 0 (1, 0) ∧ SourceSettled x 0 (2, 1) := by
  obtain ⟨x, hrun, hlog, hcalled⟩ : ∃ x, Logged.start.run defaultMapKnobs storeThenLoad = some x ∧
      x.log[2]? = some ⟨3, 0, 2, { memTrace .ld 0 8 with srcs := [5] }, [], [(1, 0)], [(2, 1)],
        false⟩ ∧
      (x.core.uopSchedule 3 freeEnv).1.execCalled = true := ⟨_, rfl, rfl, rfl⟩
  have hmem : (⟨3, 0, 2, { memTrace .ld 0 8 with srcs := [5] }, [], [(1, 0)], [(2, 1)], false⟩ :
      Fetched) ∈ live x.log :=
    List.mem_filter.mpr ⟨List.mem_of_getElem? hlog, rfl⟩
  have hsettled := producers_done_at_issue rfl hrun storeThenLoad_clean hmem rfl hcalled
  exact ⟨x, hrun, hcalled, hsettled (1, 0) (by decide), hsettled (2, 1) (by decide)⟩

/-- The thread's first uop is a store, and a load of the same bytes reads a register that was
never written.  The sentinel that stands for the writer of that register carries the number
`0` of the store, so the store is not recorded, and the load is issued before it is done.  The
store is in object `1`, the load in object `2`. -/
theorem producers_not_done_at_issue :
    ∃ x, Logged.start.run defaultMapKnobs
        [.fetch 0 (memTrace .st 0 8), .fetch 0 { memTrace .ld 0 8 with srcs := [3] },
          .advance 2] = some x ∧
      (∃ r ∈ live x.log, r.uop = 2 ∧ r.trace.bogus = false ∧ (1, 0) ∈ r.stores ∧
        ¬ SourceSettled x r.tid (1, 0)) ∧
      (x.core.uopSchedule 2 freeEnv).1 = .success := by
  obtain ⟨x, hrun, hlog, hzero, hexec⟩ : ∃ x, Logged.start.run defaultMapKnobs
      [.fetch 0 (memTrace .st 0 8), .fetch 0 { memTrace .ld 0 8 with srcs := [3] },
        .advance 2] = some x ∧
      x.log = [⟨1, 0, 0, memTrace .st 0 8, [], [], [], false⟩,
        ⟨2, 0, 1, { memTrace .ld 0 8 with srcs := [3] }, [], [], [(1, 0)], false⟩] ∧
      (x.core.heap 1).doneCycle = 0 ∧
      (x.core.uopSchedule 2 freeEnv).1 = .success := ⟨_, rfl, rfl, rfl, rfl⟩
  refine ⟨x, hrun, ⟨⟨2, 0, 1, { memTrace .ld 0 8 with srcs := [3] }, [], [], [(1, 0)], false⟩,
    ?_, rfl, rfl, List.mem_cons_self, ?_⟩, hexec⟩
  · rw [hlog]
    decide
  · rintro ⟨w, hw, hwu, -, -, hret | hdone⟩
    · have hall : ∀ w ∈ x.log, w.retired = false := by
        rw [hlog]
        decide
      exact absurd (hall w hw) (by simp [hret])
    · rw [hwu] at hdone
      exact hdone.1 hzero

end MacSim.Analysis
