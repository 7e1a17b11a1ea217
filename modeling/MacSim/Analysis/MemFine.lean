import MacSim.Analysis.MemMoves

/-!
# What the moves keep

`Fine` is the invariant that the functions of the memory system rely on: the kinds of
requests do not mix, no prefetch has merged requests and, in strict scopes, every write-back
that is marked done or freed is accounted for in the log.

Moves of a scope that issues nothing only shorten merge lists and leave every store in
flight as it is.
-/

set_option autoImplicit false

namespace MacSim.Analysis

open MacSim.Model MacSim.Computation

/-! ## Write-backs are accounted for -/

/-- Before a write-back is marked done or freed it is settled.  The newest event is first. -/
def Accounted (cfg : MemConfig) : List Event → Prop
  | [] => True
  | e :: log =>
      (∀ n, e = .wbDone (.wb n) ∨ e = .freed (.wb n) → Settled cfg log (.wb n)) ∧
        Accounted cfg log

/-- What is settled stays settled as the log grows. -/
theorem Settled.mono {cfg : MemConfig} {log log' : List Event} {r : ReqId}
    (h : Settled cfg log r) (hlog : log <:+ log') : Settled cfg log' r := by
  rcases h with ⟨d, hd, hmem⟩ | hmem
  · exact .inl ⟨d, hd, hlog.subset hmem⟩
  · exact .inr (hlog.subset hmem)

/-- In an accounted log a write-back that is done is settled. -/
theorem Accounted.settled {cfg : MemConfig} {log : List Event} (h : Accounted cfg log) {n : ℕ}
    (hdone : Event.wbDone (.wb n) ∈ log) : Settled cfg log (.wb n) := by
  induction log with
  | nil => simp at hdone
  | cons e log ih =>
      rcases List.mem_cons.mp hdone with rfl | hmem
      · exact (h.1 n (.inl rfl)).mono (List.suffix_cons _ _)
      · exact (ih h.2 hmem).mono (List.suffix_cons _ _)

/-- An event that is not the end of a write-back. -/
theorem Accounted.cons {cfg : MemConfig} {log : List Event} (h : Accounted cfg log) {e : Event}
    (he : ∀ n, e ≠ .wbDone (.wb n) ∧ e ≠ .freed (.wb n)) : Accounted cfg (e :: log) := by
  refine ⟨?_, h⟩
  intro n hn
  rcases hn with hn | hn
  · exact absurd hn (he n).1
  · exact absurd hn (he n).2

/-- What is known of every write-back that has been created, of the requests in the
controllers, and of the log. -/
structure WbSane (cfg : MemConfig) (s : Mem) : Prop where
  doneFunc : ∀ n < s.nextWb, (s.req (.wb n)).doneFunc = none
  dirty : ∀ n < s.nextWb, (s.req (.wb n)).dirty = true
  state : ∀ n < s.nextWb, (s.req (.wb n)).state ≠ .fillWaitDone
  done : ∀ n < s.nextWb, (s.req (.wb n)).done = true → Event.wbDone (.wb n) ∈ s.log
  dram : ∀ r ∈ s.dram, Event.toDram r ∈ s.log
  bypass : ∀ d, ∀ c ∈ (s.dcu d).cache, c.param.cacheByPass = false
  log : Accounted cfg s.log

section

variable {cfg : MemConfig} {sc : Scope} {s s' : Mem}

/-- A step that keeps the write-backs and the caches and adds events that end none. -/
theorem WbSane.of_same (h : WbSane cfg s) (hnext : s'.nextWb = s.nextWb)
    (hreq : ∀ n < s.nextWb,
      (s'.req (.wb n)).doneFunc = (s.req (.wb n)).doneFunc ∧
      (s'.req (.wb n)).dirty = (s.req (.wb n)).dirty ∧
      (s'.req (.wb n)).done = (s.req (.wb n)).done ∧
      ((s'.req (.wb n)).state = .fillWaitDone → (s.req (.wb n)).state = .fillWaitDone))
    (hlog : s.log <:+ s'.log) (hacc : Accounted cfg s'.log)
    (hdram : ∀ r ∈ s'.dram, r ∈ s.dram ∨ Event.toDram r ∈ s'.log)
    (hbypass : ∀ d, ∀ c ∈ (s'.dcu d).cache, c.param.cacheByPass = false) : WbSane cfg s' := by
  refine ⟨fun n hn => ?_, fun n hn => ?_, fun n hn hst => ?_, fun n hn hd => ?_, fun r hr => ?_,
    hbypass, hacc⟩
  · rw [hnext] at hn
    rw [(hreq n hn).1]
    exact h.doneFunc n hn
  · rw [hnext] at hn
    rw [(hreq n hn).2.1]
    exact h.dirty n hn
  · rw [hnext] at hn
    exact h.state n hn ((hreq n hn).2.2.2 hst)
  · rw [hnext] at hn
    rw [(hreq n hn).2.2.1] at hd
    exact hlog.subset (h.done n hn hd)
  · rcases hdram r hr with hold | hnew
    · exact hlog.subset (h.dram r hold)
    · exact hnew

/-- Only a request that is no write-back is rewritten. -/
theorem WbSane.of_other (h : WbSane cfg s) {r : ReqId} (hr : ∀ n, r ≠ .wb n) {v : MemReq}
    (hreq : s'.req = Function.update s.req r v) (hnext : s'.nextWb = s.nextWb)
    (hlog : s'.log = s.log) (hdram : s'.dram = s.dram) (hdcu : s'.dcu = s.dcu) :
    WbSane cfg s' := by
  have hsame (n : ℕ) : s'.req (.wb n) = s.req (.wb n) := by
    rw [hreq, Function.update_of_ne (Ne.symm (hr n))]
  apply h.of_same hnext
  · intro n _
    rw [hsame n]
    exact ⟨rfl, rfl, rfl, id⟩
  · rw [hlog]
  · rw [hlog]
    exact h.log
  · intro x hx
    rw [hdram] at hx
    exact .inl hx
  · rw [hdcu]
    exact h.bypass

/-- An MSHR entry is no write-back. -/
theorem IsEntry.ne_wb {r : ReqId} (h : IsEntry r) (n : ℕ) : r ≠ .wb n := by
  rintro rfl
  exact h

/-- Each move keeps the write-backs sane. -/
theorem MemMove.wbSane (hstrict : sc.strict) (hk : Kinds cfg (books s)) (h : WbSane cfg s)
    (hm : MemMove cfg sc s s') : WbSane cfg s' := by
  have hbypass : ∀ d, ∀ c ∈ (s'.dcu d).cache, c.param.cacheByPass = false := by
    intro d c' hc'
    obtain ⟨c, hc, hparam⟩ := hm.param d c' hc'
    rw [hparam]
    exact h.bypass d c hc
  cases hm with
  | aside ha =>
      apply h.of_same ha.nextWb
      · intro n _
        rw [ha.req]
        exact ⟨rfl, rfl, rfl, id⟩
      · rw [ha.log]
      · rw [ha.log]
        exact h.log
      · intro r hr
        rw [ha.dram] at hr
        exact .inl hr
      · exact hbypass
  | note e he =>
      apply h.of_same
      · rfl
      · intro n _
        exact ⟨rfl, rfl, rfl, id⟩
      · exact List.suffix_cons _ _
      · apply h.log.cons
        intro n
        constructor <;> rintro rfl <;> exact he
      · exact fun r hr => .inl hr
      · exact hbypass
  | level d f _ _ _ hparam =>
      apply h.of_same
      · rfl
      · intro n _
        exact ⟨rfl, rfl, rfl, id⟩
      · exact List.suffix_refl _
      · exact h.log
      · exact fun r hr => .inl hr
      · exact hbypass
  | create addr size ptx data =>
      have hreq (n : ℕ) (hn : n < s.nextWb) :
          (s.newWbReq cfg addr size ptx data).1.req (.wb n) = s.req (.wb n) := by
        simp [Mem.newWbReq, hn.ne]
      have hcases (n : ℕ) (hn : n < s.nextWb + 1) : n < s.nextWb ∨ n = s.nextWb := by omega
      refine ⟨fun n hn => ?_, fun n hn => ?_, fun n hn => ?_, fun n hn => ?_, h.dram, h.bypass,
        h.log⟩
      · rcases hcases n hn with hlt | rfl
        · rw [hreq n hlt]
          exact h.doneFunc n hlt
        · simp [Mem.newWbReq, MemReq.fresh]
      · rcases hcases n hn with hlt | rfl
        · rw [hreq n hlt]
          exact h.dirty n hlt
        · simp [Mem.newWbReq]
      · rcases hcases n hn with hlt | rfl
        · rw [hreq n hlt]
          exact h.state n hlt
        · simp [Mem.newWbReq]
      · rcases hcases n hn with hlt | rfl
        · rw [hreq n hlt]
          exact h.done n hlt
        · simp [Mem.newWbReq, MemReq.fresh]
  | push q r _ _ hok =>
      unfold Mem.push at hok hbypass ⊢
      split at hok
      · cases hok
      · rename_i hfull
        rw [if_neg hfull] at hbypass ⊢
        apply h.of_same
        · rfl
        · intro n _
          simp only [Mem.setEntries, Mem.modDcu, Mem.modReq]
          by_cases hr : .wb n = r
          · subst hr
            simp
          · simp [hr]
        · exact List.suffix_refl _
        · exact h.log
        · exact fun x hx => .inl hx
        · exact hbypass
  | pop q r =>
      apply h.of_same
      · rfl
      · intro n _
        exact ⟨rfl, rfl, rfl, id⟩
      · exact List.suffix_refl _
      · exact h.log
      · exact fun x hx => .inl hx
      · exact hbypass
  | retry d l _ =>
      apply h.of_same
      · rfl
      · intro n _
        exact ⟨rfl, rfl, rfl, id⟩
      · exact List.suffix_refl _
      · exact h.log
      · exact fun x hx => .inl hx
      · exact hbypass
  | tag r f hsame hstate =>
      apply h.of_same
      · rfl
      · intro n hn
        by_cases hr : .wb n = r
        · subst hr
          simp only [Mem.modReq, Function.update_self]
          refine ⟨hsame.doneFunc, hsame.dirty, hsame.done, fun hst => ?_⟩
          rcases hstate hst with hold | ⟨-, hne⟩
          · exact hold
          · exact absurd rfl (hne hstrict n)
        · simp [Mem.modReq, hr]
      · exact List.suffix_refl _
      · exact h.log
      · exact fun x hx => .inl hx
      · exact hbypass
  | finish r _ hwb =>
      have hlog : Accounted cfg (s.markDone r).log ∧ s.log <:+ (s.markDone r).log := by
        unfold Mem.markDone
        dsimp only
        split
        · rename_i ht
          refine ⟨⟨?_, h.log⟩, List.suffix_cons _ _⟩
          rintro n (hn | hn)
          · obtain rfl := Event.wbDone.inj hn
            exact hwb hstrict ht
          · cases hn
        · exact ⟨h.log, List.suffix_refl _⟩
      have hreq (n : ℕ) : (s.markDone r).req (.wb n) =
          if .wb n = r then { s.req (.wb n) with done := true } else s.req (.wb n) := by
        have hrec : (if (s.req r).type = .wb then s.record (.wbDone r) else s).req = s.req := by
          split <;> rfl
        simp only [Mem.markDone, Mem.modReq, hrec]
        by_cases hr : .wb n = r
        · subst hr
          simp
        · simp [hr]
      have hnext : (s.markDone r).nextWb = s.nextWb := by
        unfold Mem.markDone
        dsimp only
        split <;> rfl
      have hdram : (s.markDone r).dram = s.dram ∧ (s.markDone r).dcu = s.dcu := by
        unfold Mem.markDone
        dsimp only
        split <;> exact ⟨rfl, rfl⟩
      refine ⟨fun n hn => ?_, fun n hn => ?_, fun n hn => ?_, fun n hn hd => ?_, fun x hx => ?_,
        fun d c hc => ?_, hlog.1⟩
      · rw [hreq]
        split <;> exact h.doneFunc n (hnext ▸ hn)
      · rw [hreq]
        split <;> exact h.dirty n (hnext ▸ hn)
      · rw [hreq]
        split <;> exact h.state n (hnext ▸ hn)
      · rw [hnext] at hn
        by_cases hr : .wb n = r
        · subst hr
          have ht : (s.req (.wb n)).type = .wb := hk.wb n hn
          simp [Mem.markDone, ht, Mem.record, Mem.modReq]
        · rw [hreq, if_neg hr] at hd
          exact hlog.2.subset (h.done n hn hd)
      · rw [hdram.1] at hx
        exact hlog.2.subset (h.dram x hx)
      · rw [hdram.2] at hc
        exact h.bypass d c hc
  | unlink p c =>
      apply h.of_same
      · rfl
      · intro n _
        by_cases hp : .wb n = p
        · subst hp
          simp [Mem.modReq]
        · simp [Mem.modReq, hp]
      · exact List.suffix_refl _
      · exact h.log
      · exact fun x hx => .inl hx
      · exact hbypass
  | link p c _ hp _ _ => exact h.of_other hp.ne_wb rfl rfl rfl rfl rfl
  | release core r hr _ =>
      have hacc : Accounted cfg (.freed r :: s.log) := by
        apply h.log.cons
        intro n
        exact ⟨by simp, fun heq => hr.ne_wb n (Event.freed.inj heq)⟩
      apply h.of_same
      · rfl
      · intro n _
        simp only [Mem.modReq, Mem.record]
        rw [Function.update_of_ne (Ne.symm (hr.ne_wb n))]
        exact ⟨rfl, rfl, rfl, id⟩
      · exact List.suffix_cons _ _
      · exact hacc
      · exact fun x hx => .inl hx
      · exact hbypass
  | delete r hc ht hwb =>
      apply h.of_same
      · rfl
      · intro n _
        exact ⟨rfl, rfl, rfl, id⟩
      · exact List.suffix_cons _ _
      · refine ⟨?_, h.log⟩
        rintro n (hn | hn)
        · cases hn
        · obtain rfl := Event.freed.inj hn
          rcases hwb hstrict with hd | hd
          · exact h.log.settled (h.done n hc hd)
          · exact .inr hd
      · exact fun x hx => .inl hx
      · exact hbypass
  | recycle n _ =>
      apply h.of_same
      · rfl
      · intro m _
        exact ⟨rfl, rfl, rfl, id⟩
      · exact List.suffix_cons _ _
      · apply h.log.cons
        intro m
        constructor <;> simp
      · exact fun x hx => .inl hx
      · exact hbypass
  | allocate core ha =>
      obtain ⟨r, -, heq⟩ := Option.map_eq_some_iff.mp ha
      obtain ⟨rfl, rfl⟩ := Prod.mk.inj heq
      apply h.of_same
      · rfl
      · intro n _
        exact ⟨rfl, rfl, rfl, id⟩
      · exact List.suffix_refl _
      · exact h.log
      · exact fun x hx => .inl hx
      · exact hbypass
  | start r a _ hr _ _ hi =>
      unfold Mem.initNewReq at hi
      split at hi
      · cases hi
        exact h.of_other hr.ne_wb rfl rfl rfl rfl rfl
      · cases hi
  | startPool a _ _ hi =>
      unfold Mem.initNewReq at hi
      split at hi
      · cases hi
        unfold Mem.acquireEntry
        split
        · rename_i r rest hp
          obtain ⟨m, -, rfl⟩ := hk.lists .pool r (by simp [books, held, hp])
          exact h.of_other (r := .pool m) (by simp) rfl rfl rfl rfl rfl
        · apply h.of_same
          · rfl
          · intro n _
            simp [Mem.modReq]
          · exact List.suffix_refl _
          · exact h.log
          · exact fun x hx => .inl hx
          · exact h.bypass
      · cases hi
  | adjust r a _ hr _ _ _ => exact h.of_other hr.ne_wb rfl rfl rfl rfl rfl
  | carry net rx dram _ _ hdram =>
      apply h.of_same
      · rfl
      · intro n _
        exact ⟨rfl, rfl, rfl, id⟩
      · exact List.suffix_refl _
      · exact h.log
      · exact fun x hx => (hdram x hx).2
      · exact hbypass

end

/-! ## Prefetches -/

/-- No request was merged into a prefetch. -/
def PrfAlone (s : Mem) : Prop := ∀ r, (s.req r).type = .dprf → (s.req r).merge = []

section

variable {cfg : MemConfig} {sc : Scope} {s s' : Mem}

/-- One request is rewritten. -/
theorem PrfAlone.of_update (h : PrfAlone s) {r : ReqId} {v : MemReq}
    (hreq : s'.req = Function.update s.req r v) (hv : v.type = .dprf → v.merge = []) :
    PrfAlone s' := by
  intro x hx
  rw [hreq] at hx ⊢
  by_cases hxr : x = r
  · subst hxr
    rw [Function.update_self] at hx ⊢
    exact hv hx
  · rw [Function.update_of_ne hxr] at hx ⊢
    exact h x hx

/-- Marking a request done changes that mark only. -/
theorem req_markDone (r : ReqId) :
    (s.markDone r).req = Function.update s.req r { s.req r with done := true } := by
  have hrec : (if (s.req r).type = .wb then s.record (.wbDone r) else s).req = s.req := by
    split <;> rfl
  simp only [Mem.markDone, Mem.modReq, hrec]

/-- Each move keeps the prefetches without merged requests. -/
theorem MemMove.prfAlone (h : PrfAlone s) (hm : MemMove cfg sc s s') : PrfAlone s' := by
  cases hm with
  | aside ha =>
      intro r hr
      rw [ha.req] at hr ⊢
      exact h r hr
  | create => exact h.of_update rfl (by simp)
  | push q r _ _ hok =>
      unfold Mem.push at hok ⊢
      split at hok
      · cases hok
      · rename_i hfull
        rw [if_neg hfull]
        exact h.of_update rfl (h r)
  | tag r f hsame _ =>
      apply h.of_update rfl
      rw [hsame.type, hsame.merge]
      exact h r
  | finish r _ _ => exact h.of_update (req_markDone r) (h r)
  | unlink p c =>
      apply h.of_update rfl
      intro hp
      have hnil : (s.req p).merge = [] := h p hp
      simp [hnil]
  | link p c _ _ _ hprf => exact h.of_update rfl fun hp => absurd hp hprf
  | release core r _ hmerge => exact h.of_update rfl fun _ => hmerge
  | allocate core ha =>
      obtain ⟨r, -, heq⟩ := Option.map_eq_some_iff.mp ha
      obtain ⟨rfl, rfl⟩ := Prod.mk.inj heq
      exact h
  | start r a _ _ _ _ hi =>
      unfold Mem.initNewReq at hi
      split at hi
      · rename_i hmerge
        cases hi
        exact h.of_update rfl fun _ => hmerge
      · cases hi
  | startPool a _ hwt hi =>
      have hstore : a.type ≠ .dprf := by
        intro hp
        simp [MemConfig.writeThrough, hp] at hwt
      unfold Mem.initNewReq at hi
      split at hi
      · rename_i hmerge
        cases hi
        have hacq : PrfAlone s.acquireEntry.1 := by
          unfold Mem.acquireEntry
          split
          · exact h
          · exact h.of_update rfl (by simp [MemReq.fresh])
        exact hacq.of_update rfl fun hp => absurd hp hstore
      · cases hi
  | adjust r a _ _ _ hprf _ => exact h.of_update rfl fun hp => absurd hp hprf
  | _ => exact h

end

/-! ## The invariant -/

/-- What the functions of the memory system rely on. -/
structure Fine (cfg : MemConfig) (strict : Prop) (s : Mem) : Prop where
  kinds : Kinds cfg (books s)
  prf : PrfAlone s
  wb : strict → WbSane cfg s

section

variable {cfg : MemConfig} {sc : Scope} {s s' : Mem}

/-- Each move keeps the invariant. -/
theorem MemMove.fine (h : Fine cfg sc.strict s) (hm : MemMove cfg sc s s') : Fine cfg sc.strict s' :=
  ⟨hm.kinds h.kinds, hm.prfAlone h.prf, fun hs => hm.wbSane hs h.kinds (h.wb hs)⟩

/-- Any sequence of moves keeps the invariant. -/
theorem MemMoves.fine (hm : MemMoves cfg sc s s') (h : Fine cfg sc.strict s) : Fine cfg sc.strict s' := by
  induction hm with
  | refl => exact h
  | tail _ hm ih => exact hm.fine ih

end

/-! ## Scopes that issue nothing -/

/-- Two versions of a request ask for the same. -/
structure SameGoal (a b : MemReq) : Prop where
  type : a.type = b.type
  acc : a.acc = b.acc
  addr : a.addr = b.addr
  cacheId : a.cacheId = b.cacheId

/-- A request asks for what it asks. -/
theorem SameGoal.refl (a : MemReq) : SameGoal a a := ⟨rfl, rfl, rfl, rfl⟩

/-- Merge lists only get shorter, and a request asks for what it asked before unless it was
freed, after which it is no store and has no merged requests. -/
structure Calm (s s' : Mem) : Prop where
  merge : ∀ r, (s'.req r).merge ⊆ (s.req r).merge
  goal : ∀ r, SameGoal (s'.req r) (s.req r) ∨
    ((s'.req r).merge = [] ∧ (s'.req r).type ≠ .dstore)

/-- Unchanged requests are calm. -/
theorem Calm.of_eq {s s' : Mem} (h : s'.req = s.req) : Calm s s' := by
  constructor
  · intro r
    rw [h]
    exact List.Subset.refl _
  · intro r
    rw [h]
    exact .inl (SameGoal.refl _)

/-- Calm changes compose. -/
theorem Calm.trans {s t u : Mem} (h : Calm s t) (h' : Calm t u) : Calm s u := by
  constructor
  · intro r
    exact List.Subset.trans (h'.merge r) (h.merge r)
  · intro r
    rcases h'.goal r with hg' | hfreed
    · rcases h.goal r with hg | ⟨hmerge, htype⟩
      · exact .inl ⟨hg'.type.trans hg.type, hg'.acc.trans hg.acc, hg'.addr.trans hg.addr,
          hg'.cacheId.trans hg.cacheId⟩
      · refine .inr ⟨?_, ?_⟩
        · exact List.subset_nil.mp (hmerge ▸ h'.merge r)
        · rw [hg'.type]
          exact htype
    · exact .inr hfreed

/-- One request is rewritten. -/
theorem Calm.of_update {s s' : Mem} {r : ReqId} {v : MemReq}
    (hreq : s'.req = Function.update s.req r v) (hmerge : v.merge ⊆ (s.req r).merge)
    (hgoal : SameGoal v (s.req r) ∨ (v.merge = [] ∧ v.type ≠ .dstore)) : Calm s s' := by
  constructor
  · intro x
    rw [hreq]
    by_cases hx : x = r
    · subst hx
      rw [Function.update_self]
      exact hmerge
    · rw [Function.update_of_ne hx]
      exact List.Subset.refl _
  · intro x
    rw [hreq]
    by_cases hx : x = r
    · subst hx
      rw [Function.update_self]
      exact hgoal
    · rw [Function.update_of_ne hx]
      exact .inl (SameGoal.refl _)

section

variable {cfg : MemConfig} {sc : Scope} {s s' : Mem}

/-- A move that issues nothing is calm. -/
theorem MemMove.calm (hissue : ¬ sc.issues) (hm : MemMove cfg sc s s') : Calm s s' := by
  cases hm with
  | aside ha => exact Calm.of_eq ha.req
  | create =>
      apply Calm.of_update rfl
      · simp [MemReq.fresh]
      · exact .inr ⟨rfl, by simp⟩
  | push q r _ _ hok =>
      unfold Mem.push at hok ⊢
      split at hok
      · cases hok
      · rename_i hfull
        rw [if_neg hfull]
        exact Calm.of_update rfl (List.Subset.refl _) (.inl ⟨rfl, rfl, rfl, rfl⟩)
  | tag r f hsame _ =>
      apply Calm.of_update rfl
      · rw [hsame.merge]
        exact List.Subset.refl _
      · exact .inl ⟨hsame.type, hsame.acc, hsame.addr, hsame.cacheId⟩
  | finish r _ _ =>
      exact Calm.of_update (req_markDone r) (List.Subset.refl _) (.inl ⟨rfl, rfl, rfl, rfl⟩)
  | unlink p c =>
      exact Calm.of_update rfl (List.filter_subset_self _) (.inl ⟨rfl, rfl, rfl, rfl⟩)
  | release core r _ hmerge =>
      apply Calm.of_update rfl
      · exact List.Subset.refl _
      · exact .inr ⟨hmerge, by simp [MemReq.init]⟩
  | allocate core ha =>
      obtain ⟨r, -, heq⟩ := Option.map_eq_some_iff.mp ha
      obtain ⟨rfl, rfl⟩ := Prod.mk.inj heq
      exact Calm.of_eq rfl
  | link p c hi _ _ _ => exact absurd hi hissue
  | start r a hi _ _ _ _ => exact absurd hi hissue
  | startPool a hi _ _ => exact absurd hi hissue
  | adjust r a hi _ _ _ _ => exact absurd hi hissue
  | _ => exact Calm.of_eq rfl

/-- Moves that issue nothing are calm. -/
theorem MemMoves.calm (hissue : ¬ sc.issues) (hm : MemMoves cfg sc s s') : Calm s s' := by
  induction hm with
  | refl => exact Calm.of_eq rfl
  | tail _ hm ih => exact ih.trans (hm.calm hissue)

end

/-! ## What a scope leaves out stays as it is -/

section

variable {cfg : MemConfig} {sc : Scope} {s s' : Mem}

/-- A queue that is set has the entries it is given, and the others keep theirs. -/
theorem entries_setEntries (p q : QueueId) (l : List ReqId) :
    (s.setEntries p l).entries q = if q = p then l else s.entries q := by
  have h := congrFun (congrArg Books.held (books_setEntries s p l)) (.queue q)
  rw [show (s.setEntries p l).entries q = (books (s.setEntries p l)).held (.queue q) from rfl, h]
  by_cases hq : q = p
  · subst hq
    simp
  · have hne : Loc.queue q ≠ Loc.queue p := fun heq => hq (Loc.queue.inj heq)
    simp [hq, hne, held]

/-- A change of a cache unit that keeps its queues keeps all entries. -/
theorem entries_modDcu {d : DcuId} {f : Dcu → Dcu}
    (hqueue : (f (s.dcu d)).queue = (s.dcu d).queue) (q : QueueId) :
    (s.modDcu d f).entries q = s.entries q := by
  by_cases hd : q.dcu = d
  · subst hd
    simp [Mem.entries, Mem.modDcu, hqueue]
  · simp [Mem.entries, Mem.modDcu, hd]

/-- A queue that may not grow does not. -/
theorem MemMove.entries (hm : MemMove cfg sc s s') {q : QueueId} (hq : ¬ sc.queue q) :
    s'.entries q ⊆ s.entries q := by
  cases hm with
  | aside ha =>
      unfold Mem.entries
      rw [ha.dcu]
      exact List.Subset.refl _
  | level d f hqueue _ _ _ =>
      rw [entries_modDcu hqueue]
      exact List.Subset.refl _
  | retry d l _ =>
      rw [entries_modDcu]
      · exact List.Subset.refl _
      · rfl
  | push p r hp _ hok =>
      unfold Mem.push at hok ⊢
      split at hok
      · cases hok
      · rename_i hfull
        rw [if_neg hfull, entries_setEntries, if_neg]
        · exact List.Subset.refl _
        · rintro rfl
          exact hq hp
  | pop p r =>
      unfold Mem.pop
      rw [entries_setEntries]
      split
      · rename_i heq
        rw [heq]
        exact List.filter_subset_self _
      · exact List.Subset.refl _
  | finish r _ _ =>
      unfold Mem.markDone
      dsimp only
      split <;> exact List.Subset.refl _
  | allocate core ha =>
      obtain ⟨r, -, heq⟩ := Option.map_eq_some_iff.mp ha
      obtain ⟨rfl, rfl⟩ := Prod.mk.inj heq
      exact List.Subset.refl _
  | start r a _ _ _ _ hi =>
      unfold Mem.initNewReq at hi
      split at hi
      · cases hi
        exact List.Subset.refl _
      · cases hi
  | startPool a _ _ hi =>
      unfold Mem.initNewReq at hi
      split at hi
      · cases hi
        unfold Mem.acquireEntry
        split <;> exact List.Subset.refl _
      · cases hi
  | _ => exact List.Subset.refl _

/-- A queue outside the scope gains no entry. -/
theorem MemMoves.entries (hm : MemMoves cfg sc s s') {q : QueueId} (hq : ¬ sc.queue q) :
    s'.entries q ⊆ s.entries q := by
  induction hm with
  | refl => exact List.Subset.refl _
  | tail _ hm ih => exact List.Subset.trans (hm.entries hq) ih

/-- What a move does to the place in the way and to the mark of a request. -/
theorem MemMove.state_done (hm : MemMove cfg sc s s') (r : ReqId) :
    ((s'.req r).state = .fillWaitDone → (s.req r).state = .fillWaitDone ∨ sc.waits) ∧
      ((s'.req r).done = true → (s.req r).done = true ∨ sc.completes r) := by
  have hupdate {p : ReqId} {v : MemReq} (hreq : s'.req = Function.update s.req p v)
      (hstate : v.state = .fillWaitDone → (s.req p).state = .fillWaitDone ∨ sc.waits)
      (hdone : v.done = true → (s.req p).done = true ∨ sc.completes p) :
      ((s'.req r).state = .fillWaitDone → (s.req r).state = .fillWaitDone ∨ sc.waits) ∧
        ((s'.req r).done = true → (s.req r).done = true ∨ sc.completes r) := by
    rw [hreq]
    by_cases hr : r = p
    · subst hr
      rw [Function.update_self]
      exact ⟨hstate, hdone⟩
    · rw [Function.update_of_ne hr]
      exact ⟨.inl, .inl⟩
  cases hm with
  | aside ha =>
      rw [ha.req]
      exact ⟨.inl, .inl⟩
  | create =>
      apply hupdate rfl
      · simp
      · simp [MemReq.fresh]
  | push q p _ _ hok =>
      unfold Mem.push at hok hupdate ⊢
      split at hok
      · cases hok
      · rename_i hfull
        rw [if_neg hfull] at hupdate ⊢
        exact hupdate rfl .inl .inl
  | tag p f hsame hstate =>
      apply hupdate rfl
      · intro h
        rcases hstate h with hold | hnew
        · exact .inl hold
        · exact .inr hnew.1
      · rw [hsame.done]
        exact .inl
  | finish p hp _ => exact hupdate (req_markDone p) .inl fun _ => .inr hp
  | unlink p c => exact hupdate rfl .inl .inl
  | link p c _ _ _ _ => exact hupdate rfl .inl .inl
  | release core p _ _ =>
      apply hupdate rfl
      · simp [MemReq.init]
      · simp [MemReq.init]
  | allocate core ha =>
      obtain ⟨p, -, heq⟩ := Option.map_eq_some_iff.mp ha
      obtain ⟨rfl, rfl⟩ := Prod.mk.inj heq
      exact ⟨.inl, .inl⟩
  | start p a _ _ _ _ hi =>
      unfold Mem.initNewReq at hi
      split at hi
      · cases hi
        apply hupdate rfl <;> simp
      · cases hi
  | startPool a _ _ hi =>
      unfold Mem.initNewReq at hi
      split at hi
      · cases hi
        unfold Mem.acquireEntry
        split
        · rename_i p rest hp
          by_cases hr : r = p
          · subst hr
            simp [Mem.modReq]
          · simp only [Mem.modReq, Function.update_of_ne hr]
            exact ⟨.inl, .inl⟩
        · by_cases hr : r = .pool s.nextPool
          · subst hr
            simp [Mem.modReq]
          · simp only [Mem.modReq, Function.update_of_ne hr]
            exact ⟨.inl, .inl⟩
      · cases hi
  | adjust p a _ _ _ _ _ =>
      apply hupdate rfl
      · exact .inl
      · simp
  | _ => exact ⟨.inl, .inl⟩

/-- Where no request is made to wait, none waits that did not before. -/
theorem MemMoves.state (hwaits : ¬ sc.waits) (hm : MemMoves cfg sc s s') (r : ReqId)
    (h : (s'.req r).state = .fillWaitDone) : (s.req r).state = .fillWaitDone := by
  induction hm with
  | refl => exact h
  | tail _ hm ih =>
      rcases (hm.state_done r).1 h with hold | hnew
      · exact ih hold
      · exact absurd hnew hwaits

/-- Only requests in the scope are marked done. -/
theorem MemMoves.done (hm : MemMoves cfg sc s s') (r : ReqId) (h : (s'.req r).done = true) :
    (s.req r).done = true ∨ sc.completes r := by
  induction hm with
  | refl => exact .inl h
  | tail _ hm ih =>
      rcases (hm.state_done r).2 h with hold | hnew
      · exact ih hold
      · exact .inr hnew

end

end MacSim.Analysis
