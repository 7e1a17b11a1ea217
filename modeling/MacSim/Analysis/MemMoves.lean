import MacSim.Analysis.RequestKinds
import MacSim.Analysis.CacheLines

/-!
# The memory system as elementary moves

Everything that the functions of the memory system do to the state is a sequence of the
moves listed here.  A move says what it may touch: a request enters or leaves one list, one
request is rewritten in one way, a cache line changes, an event is noted.  `Scope` limits
the moves of one function, so that it is visible from outside which caches it may change and
which requests it may complete.

An invariant of all moves is an invariant of every function.  The first is that the kinds of
requests do not mix.
-/

set_option autoImplicit false

namespace MacSim.Analysis

open MacSim.Model MacSim.Computation

/-- What a function may do. -/
structure Scope where
  /-- the levels whose cache may lose a dirty line -/
  cache : DcuId → Prop
  /-- the queues that may grow -/
  queue : QueueId → Prop
  /-- the requests that may complete or be marked done -/
  completes : ReqId → Prop
  /-- whether requests may be issued, promoted or merged -/
  issues : Prop
  /-- whether a request may be left waiting for its completion -/
  waits : Prop
  /-- whether a write-back is marked done only when it is accounted for -/
  strict : Prop

/-- Whether the line of an address is present and dirty in a cache. -/
def dirtyIn (cache : Option (Cache DcacheData)) (a : Addr) : Bool :=
  cache.any fun c => ((c.lookup a).bind c.data?).any (·.dirty)

/-- No dirty line is lost. -/
def KeepsDirty (cache cache' : Option (Cache DcacheData)) : Prop :=
  ∀ a, dirtyIn cache a = true → dirtyIn cache' a = true

/-- A cache keeps its own dirty lines. -/
theorem KeepsDirty.refl (cache : Option (Cache DcacheData)) : KeepsDirty cache cache :=
  fun _ h => h

/-- Only uops, frontends, read-only caches and clocks differ. -/
structure Aside (s s' : Mem) : Prop where
  req : s'.req = s.req
  mshr : s'.mshr = s.mshr
  mshrFreeList : s'.mshrFreeList = s.mshrFreeList
  memReqPool : s'.memReqPool = s.memReqPool
  nextPool : s'.nextPool = s.nextPool
  nextWb : s'.nextWb = s.nextWb
  dcu : s'.dcu = s.dcu
  net : s'.net = s.net
  rx : s'.rx = s.rx
  dram : s'.dram = s.dram
  log : s'.log = s.log

/-- A write-back has made a line of an enabled cache dirty, or has reached a controller. -/
def Settled (cfg : MemConfig) (log : List Event) (r : ReqId) : Prop :=
  (∃ d, (cfg.flags d).disable = false ∧ Event.dirtied r d ∈ log) ∨ Event.toDram r ∈ log

/-- The events that may be noted freely, and the conditions of the others. -/
def Notable (cfg : MemConfig) (sc : Scope) (s : Mem) : Event → Prop
  | .dirtied r d => (cfg.flags d).disable = false ∧ s.lineDirty d (s.req r).addr = true
  | .storeDone r b => sc.completes r ∧ b = s.dirtyOnPath cfg r ∧ (s.req r).type = .dstore ∧
      (s.req r).acc = false
  | .wbDone _ => False
  | .freed _ => False
  | _ => True

/-- Two versions of a request that differ only in where it stands on its way. -/
structure SameTask (a b : MemReq) : Prop where
  done : a.done = b.done
  type : a.type = b.type
  acc : a.acc = b.acc
  coreId : a.coreId = b.coreId
  addr : a.addr = b.addr
  size : a.size = b.size
  uop : a.uop = b.uop
  cacheId : a.cacheId = b.cacheId
  dirty : a.dirty = b.dirty
  doneFunc : a.doneFunc = b.doneFunc
  merge : a.merge = b.merge

/-- The elementary moves. -/
inductive MemMove (cfg : MemConfig) (sc : Scope) : Mem → Mem → Prop
  | aside {s s' : Mem} (h : Aside s s') : MemMove cfg sc s s'
  | note {s : Mem} (e : Event) (h : Notable cfg sc s e) : MemMove cfg sc s (s.record e)
  /-- ports, clock and cache of a level -/
  | level {s : Mem} (d : DcuId) (f : Dcu → Dcu)
      (hqueue : (f (s.dcu d)).queue = (s.dcu d).queue)
      (hretry : (f (s.dcu d)).retryQueue = (s.dcu d).retryQueue)
      (hcache : sc.cache d ∨ KeepsDirty (s.dcu d).cache (f (s.dcu d)).cache)
      (hparam : ∀ c' ∈ (f (s.dcu d)).cache, ∃ c ∈ (s.dcu d).cache, c'.param = c.param) :
      MemMove cfg sc s (s.modDcu d f)
  /-- a new write-back request -/
  | create {s : Mem} (addr : Addr) (size : ℕ) (ptx : Bool) (data : DcacheData) :
      MemMove cfg sc s (s.newWbReq cfg addr size ptx data).1
  | push {s : Mem} (q : QueueId) (r : ReqId) (hq : sc.queue q) (hr : Created (books s) r)
      (hok : (s.push cfg q r).2 = true) : MemMove cfg sc s (s.push cfg q r).1
  | pop {s : Mem} (q : QueueId) (r : ReqId) : MemMove cfg sc s (s.pop q r)
  | retry {s : Mem} (d : DcuId) (l : List ReqId) (hl : ∀ r ∈ l, Created (books s) r) :
      MemMove cfg sc s (s.modDcu d fun c => { c with retryQueue := l })
  /-- a request moves on; a write-back is never left waiting for its completion -/
  | tag {s : Mem} (r : ReqId) (f : MemReq → MemReq) (hsame : SameTask (f (s.req r)) (s.req r))
      (hstate : (f (s.req r)).state = .fillWaitDone →
        (s.req r).state = .fillWaitDone ∨ (sc.waits ∧ (sc.strict → ∀ n, r ≠ .wb n))) :
      MemMove cfg sc s (s.modReq r f)
  | finish {s : Mem} (r : ReqId) (hr : sc.completes r)
      (hwb : sc.strict → (s.req r).type = .wb → Settled cfg s.log r) :
      MemMove cfg sc s (s.markDone r)
  /-- a request leaves a merge list -/
  | unlink {s : Mem} (p c : ReqId) :
      MemMove cfg sc s (s.modReq p fun req => { req with merge := req.merge.filter (· ≠ c) })
  /-- a request joins a merge list -/
  | link {s : Mem} (p c : ReqId) (hissue : sc.issues) (hp : IsEntry p) (hc : IsEntry c)
      (hprf : (s.req p).type ≠ .dprf) :
      MemMove cfg sc s (s.modReq p fun req => { req with merge := req.merge ++ [c] })
  /-- an entry goes back to a free list -/
  | release {s : Mem} (core : ℕ) (r : ReqId) (hr : IsEntry r) (hmerge : (s.req r).merge = []) :
      MemMove cfg sc s
        { (s.record (.freed r)).modReq r MemReq.init with
          mshr := Function.update s.mshr core ((s.mshr core).filter (· ≠ r))
          mshrFreeList := Function.update s.mshrFreeList core (s.mshrFreeList core ++ [r]) }
  /-- a write-back is deleted -/
  | delete {s : Mem} (r : ReqId) (hc : Created (books s) r) (hr : (s.req r).type = .wb)
      (hwb : sc.strict → (s.req r).done = true ∨ Event.toDram r ∈ s.log) :
      MemMove cfg sc s (s.record (.freed r))
  /-- a written-through store goes back to the pool -/
  | recycle {s : Mem} (n : ℕ) (hn : n < s.nextPool) : MemMove cfg sc s (s.freeWriteReq (.pool n))
  | allocate {s s' : Mem} {r : ReqId} (core : ℕ) (h : s.allocateNewEntry core = some (s', r)) :
      MemMove cfg sc s s'
  | start {s s' : Mem} (r : ReqId) (a : Mem.ReqArgs) (hissue : sc.issues) (hr : IsEntry r)
      (htype : a.type ≠ .wb) (hwt : cfg.writeThrough a.type a.ptx = false) (h : s.initNewReq cfg r a = some s') :
      MemMove cfg sc s s'
  | startPool {s s' : Mem} (a : Mem.ReqArgs) (hissue : sc.issues)
      (hwt : cfg.writeThrough a.type a.ptx = true)
      (h : s.acquireEntry.1.initNewReq cfg s.acquireEntry.2 a = some s') : MemMove cfg sc s s'
  | adjust {s : Mem} (r : ReqId) (a : Mem.ReqArgs) (hissue : sc.issues) (hr : IsEntry r)
      (htype : a.type ≠ .wb) (hprf : a.type ≠ .dprf)
      (hwt : cfg.writeThrough a.type a.ptx = false) : MemMove cfg sc s (s.adjustReq cfg r a)
  /-- requests move through the network and the controllers -/
  | carry {s : Mem} (net : List (DcuId × ReqId)) (rx : DcuId → List ReqId) (dram : List ReqId)
      (hnet : ∀ p ∈ net, Created (books s) p.2) (hrx : ∀ d, ∀ r ∈ rx d, Created (books s) r)
      (hdram : ∀ r ∈ dram, Created (books s) r ∧ (r ∈ s.dram ∨ Event.toDram r ∈ s.log)) :
      MemMove cfg sc s { s with net := net, rx := rx, dram := dram }

/-- Some moves. -/
abbrev MemMoves (cfg : MemConfig) (sc : Scope) : Mem → Mem → Prop :=
  Relation.ReflTransGen (MemMove cfg sc)

/-- Two sequences of moves in a row are one sequence. -/
theorem MemMoves.trans {cfg : MemConfig} {sc : Scope} {s t u : Mem} (h : MemMoves cfg sc s t)
    (h' : MemMoves cfg sc t u) : MemMoves cfg sc s u :=
  Relation.ReflTransGen.trans h h'

/-! ## Growth -/

/-- A move only adds to the log and to the counters. -/
theorem MemMove.grows {cfg : MemConfig} {sc : Scope} {s s' : Mem} (h : MemMove cfg sc s s') :
    Grows s s' := by
  cases h with
  | aside h => exact ⟨h.log ▸ List.suffix_refl _, h.nextPool.ge, h.nextWb.ge⟩
  | note e _ => exact ⟨List.suffix_cons _ _, le_rfl, le_rfl⟩
  | create => exact ⟨List.suffix_refl _, le_rfl, Nat.le_succ _⟩
  | push q r _ _ _ =>
      unfold Mem.push
      split
      · exact Grows.refl _
      · exact ⟨List.suffix_refl _, le_rfl, le_rfl⟩
  | finish r _ _ =>
      unfold Mem.markDone
      dsimp only
      split
      · exact ⟨List.suffix_cons _ _, le_rfl, le_rfl⟩
      · exact ⟨List.suffix_refl _, le_rfl, le_rfl⟩
  | release => exact ⟨List.suffix_cons _ _, le_rfl, le_rfl⟩
  | delete => exact ⟨List.suffix_cons _ _, le_rfl, le_rfl⟩
  | recycle => exact ⟨List.suffix_cons _ _, le_rfl, le_rfl⟩
  | allocate core h =>
      obtain ⟨_, -, heq⟩ := Option.map_eq_some_iff.mp h
      obtain ⟨rfl, -⟩ := Prod.mk.inj heq
      exact ⟨List.suffix_refl _, le_rfl, le_rfl⟩
  | start r a _ _ _ _ h =>
      unfold Mem.initNewReq at h
      split at h
      · cases h
        exact ⟨List.suffix_refl _, le_rfl, le_rfl⟩
      · cases h
  | startPool a _ _ h =>
      unfold Mem.initNewReq at h
      split at h
      · cases h
        unfold Mem.acquireEntry
        split
        · exact ⟨List.suffix_refl _, le_rfl, le_rfl⟩
        · exact ⟨List.suffix_refl _, Nat.le_succ _, le_rfl⟩
      · cases h
  | _ => exact ⟨List.suffix_refl _, le_rfl, le_rfl⟩

/-- Moves only add to the log and to the counters. -/
theorem MemMoves.grows {cfg : MemConfig} {sc : Scope} {s s' : Mem} (h : MemMoves cfg sc s s') :
    Grows s s' := by
  induction h with
  | refl => exact Grows.refl s
  | tail _ h ih => exact ih.trans h.grows

/-! ## The kinds stay apart -/

section

variable {cfg : MemConfig} {sc : Scope} {s s' : Mem}

/-- What happens aside leaves the books alone. -/
theorem Aside.books (h : Aside s s') : books s' = books s := by
  unfold Analysis.books
  congr 1
  · funext k
    cases k <;> simp [held, Mem.entries, h.mshrFreeList, h.memReqPool, h.req, h.dcu, h.net, h.rx,
      h.dram]
  · rw [h.req]
  · exact h.mshr
  · exact h.nextPool
  · exact h.nextWb

/-- The books after a write-back request was created. -/
theorem books_newWbReq (addr : Addr) (size : ℕ) (ptx : Bool) (data : DcacheData) :
    books (s.newWbReq cfg addr size ptx data).1 =
      { books s with
        held := Function.update (held s) (.merged (.wb s.nextWb)) []
        card := Function.update (books s).card (.wb s.nextWb) ⟨false, none, .wb, ptx, data.coreId⟩
        nextWb := s.nextWb + 1 } := by
  unfold Mem.newWbReq books
  dsimp only
  congr 1
  · funext k
    cases k with
    | merged p =>
        by_cases hp : p = .wb s.nextWb
        · subst hp
          simp [held, MemReq.fresh]
        · simp [held, hp]
    | _ => rfl
  · funext x
    by_cases hx : x = .wb s.nextWb
    · subst hx
      simp [card, MemReq.fresh]
    · simp [hx]

/-- More requests have been created. -/
theorem Fits.mono {b b' : Books} (hpool : b.nextPool ≤ b'.nextPool) (hwb : b.nextWb ≤ b'.nextWb)
    {k : Loc} {r : ReqId} (h : Fits b k r) : Fits b' k r := by
  have hcreated : Created b r → Created b' r := by
    intro hr
    cases r with
    | mshr c i => trivial
    | pool n => exact lt_of_lt_of_le hr hpool
    | wb n => exact lt_of_lt_of_le hr hwb
  cases k with
  | free c => exact h
  | merged p => exact h
  | pool =>
      obtain ⟨n, hn, rfl⟩ := h
      exact ⟨n, lt_of_lt_of_le hn hpool, rfl⟩
  | _ => exact hcreated h

/-- A new write-back keeps the kinds apart. -/
theorem Kinds.create (hk : Kinds cfg (books s)) (addr : Addr) (size : ℕ) (ptx : Bool)
    (data : DcacheData) : Kinds cfg (books (s.newWbReq cfg addr size ptx data).1) := by
  rw [books_newWbReq]
  refine ⟨fun c i => ?_, fun n hn => ?_, fun n hn => ?_, hk.mshr, fun k r hr => ?_⟩
  · simpa using hk.entry c i
  · simpa using hk.pool n hn
  · by_cases heq : n = s.nextWb
    · simp [heq]
    · have hlt : n < (books s).nextWb := by
        change n < s.nextWb + 1 at hn
        change n < s.nextWb
        omega
      simpa [heq] using hk.wb n hlt
  · have hold : r ∈ held s k := by
      by_cases hkk : k = .merged (.wb s.nextWb)
      · subst hkk
        simp at hr
      · simpa [hkk] using hr
    refine Fits.mono ?_ ?_ (hk.lists k r hold)
    · exact le_rfl
    · exact Nat.le_succ _

/-- A change of a request keeps the kinds apart when type and merged requests still fit. -/
theorem Kinds.modReq (hk : Kinds cfg (books s)) {r : ReqId} {f : MemReq → MemReq}
    (hmerge : ∀ c ∈ (f (s.req r)).merge, Fits (books s) (.merged r) c)
    (hentry : IsEntry r → (f (s.req r)).type ≠ .wb ∧
      cfg.writeThrough (f (s.req r)).type (f (s.req r)).acc = false)
    (hother : ¬ IsEntry r → (f (s.req r)).type = (s.req r).type ∧
      (f (s.req r)).acc = (s.req r).acc) : Kinds cfg (books (s.modReq r f)) := by
  rw [books_modReq_eq]
  exact (hk.setCard hentry hother).setHeld hmerge

/-- A rewriting that keeps type, kind and merge list. -/
theorem Kinds.modReq_same (hk : Kinds cfg (books s)) {r : ReqId} {f : MemReq → MemReq}
    (hmerge : ∀ c ∈ (f (s.req r)).merge, c ∈ (s.req r).merge)
    (htype : (f (s.req r)).type = (s.req r).type) (hacc : (f (s.req r)).acc = (s.req r).acc) :
    Kinds cfg (books (s.modReq r f)) := by
  apply hk.modReq
  · intro c hc
    exact hk.lists (.merged r) c (hmerge c hc)
  · intro hr
    rw [htype, hacc]
    cases r with
    | mshr c i => exact hk.entry c i
    | pool n => exact hr.elim
    | wb n => exact hr.elim
  · intro _
    exact ⟨htype, hacc⟩

/-- A request that was created may be put into a queue. -/
theorem Kinds.push (hk : Kinds cfg (books s)) {q : QueueId} {r : ReqId}
    (hr : Created (books s) r) : Kinds cfg (books (s.push cfg q r).1) := by
  cases hok : (s.push cfg q r).2 with
  | false =>
      rw [push_refused cfg s hok]
      exact hk
  | true =>
      obtain ⟨l, hl, hbooks⟩ := books_push cfg s hok
      rw [hbooks]
      have hcard : Kinds cfg { books s with
          card := Function.update (books s).card r { (books s).card r with queue := some q } } := by
        apply hk.setCard
        · intro he
          cases r with
          | mshr c i => exact hk.entry c i
          | pool n => exact he.elim
          | wb n => exact he.elim
        · intro _
          exact ⟨rfl, rfl⟩
      apply hcard.setHeld
      intro x hx
      rcases List.mem_cons.mp (hl.mem_iff.mp hx) with rfl | hx
      · exact hr
      · exact hk.lists (.queue q) x hx

/-- A new request of an entry keeps the kinds apart. -/
theorem Kinds.initNewReq (hk : Kinds cfg (books s)) {r : ReqId} {a : Mem.ReqArgs} {s' : Mem}
    (hr : IsEntry r) (htype : a.type ≠ .wb) (hwt : cfg.writeThrough a.type a.ptx = false)
    (h : s.initNewReq cfg r a = some s') : Kinds cfg (books s') := by
  unfold Mem.initNewReq at h
  split at h
  · cases h
    apply hk.modReq
    · intro c hc
      exact hk.lists (.merged r) c hc
    · intro _
      exact ⟨htype, hwt⟩
    · intro hne
      exact absurd hr hne
  · cases h

/-- A request of the pool, taken and initialised in one go. -/
theorem Kinds.startPool (hk : Kinds cfg (books s)) {a : Mem.ReqArgs} {s' : Mem}
    (hwt : cfg.writeThrough a.type a.ptx = true)
    (h : s.acquireEntry.1.initNewReq cfg s.acquireEntry.2 a = some s') : Kinds cfg (books s') := by
  -- the record that was there before does not matter: type and kind are overwritten
  have hwrite (t : Mem) (n : ℕ) (f : MemReq → MemReq) (hentry : ∀ c i,
      (t.req (.mshr c i)).type ≠ .wb ∧
        cfg.writeThrough (t.req (.mshr c i)).type (t.req (.mshr c i)).acc = false)
      (hpool : ∀ m < t.nextPool, m ≠ n →
        cfg.writeThrough (t.req (.pool m)).type (t.req (.pool m)).acc = true)
      (hwb : ∀ m < t.nextWb, (t.req (.wb m)).type = .wb)
      (hmshr : ∀ c, ∀ r ∈ t.mshr c, IsEntry r)
      (hheld : ∀ k, ∀ r ∈ held t k, Fits (books t) k r)
      (hmerge : (f (t.req (.pool n))).merge = (t.req (.pool n)).merge)
      (hf : cfg.writeThrough (f (t.req (.pool n))).type (f (t.req (.pool n))).acc = true) :
      Kinds cfg (books (t.modReq (.pool n) f)) := by
    rw [books_modReq_card t _ f hmerge]
    refine ⟨fun c i => ?_, fun m hm => ?_, fun m hm => ?_, hmshr, hheld⟩
    · simpa [books, card] using hentry c i
    · by_cases heq : m = n
      · subst heq
        simpa [card] using hf
      · simpa [books, card, heq] using hpool m hm heq
    · simpa [books, card] using hwb m hm
  unfold Mem.initNewReq at h
  split at h
  · cases h
    unfold Mem.acquireEntry
    split
    · rename_i r rest hp
      obtain ⟨n, hn, rfl⟩ := hk.lists .pool r (by simp [books, held, hp])
      apply hwrite
      · exact hk.entry
      · intro m hm _
        exact hk.pool m hm
      · exact hk.wb
      · exact hk.mshr
      · intro k x hx
        have hold : x ∈ held s k := by
          cases k with
          | pool =>
              simp only [held, hp]
              exact List.mem_cons_of_mem _ hx
          | _ => exact hx
        exact hk.lists k x hold
      · rfl
      · exact hwt
    · apply hwrite
      · intro c i
        simpa [books, card] using hk.entry c i
      · intro m hm hne
        have hlt : m < s.nextPool := by
          change m < s.nextPool + 1 at hm
          omega
        simpa [books, card, hne] using hk.pool m hlt
      · intro m hm
        simpa [books, card] using hk.wb m hm
      · exact hk.mshr
      · intro k x hx
        have hold : x ∈ held s k := by
          cases k with
          | merged p =>
              by_cases hp : p = .pool s.nextPool
              · subst hp
                simp [held, MemReq.fresh] at hx
              · simpa [held, hp] using hx
          | _ => exact hx
        refine Fits.mono ?_ ?_ (hk.lists k x hold)
        · exact Nat.le_succ _
        · exact le_rfl
      · rfl
      · exact hwt
  · cases h

/-- Each move keeps the kinds apart. -/
theorem MemMove.kinds (hk : Kinds cfg (books s)) (h : MemMove cfg sc s s') : Kinds cfg (books s') := by
  cases h with
  | aside h =>
      rw [h.books]
      exact hk
  | note e _ => exact hk
  | level d f hqueue hretry _ _ =>
      rw [books_modDcu s d f hqueue hretry]
      exact hk
  | create addr size ptx data => exact hk.create addr size ptx data
  | push q r _ hr _ => exact hk.push hr
  | pop q r =>
      rw [books_pop]
      apply hk.setHeld
      intro x hx
      exact hk.lists (.queue q) x (List.mem_of_mem_filter hx)
  | retry d l hl =>
      rw [books_setRetry]
      exact hk.setHeld hl
  | tag r f hsame _ =>
      apply hk.modReq_same
      · rw [hsame.merge]
        exact fun c hc => hc
      · exact hsame.type
      · exact hsame.acc
  | finish r _ _ =>
      have hrec : books (if (s.req r).type = .wb then s.record (.wbDone r) else s) = books s := by
        split <;> rfl
      unfold Mem.markDone
      dsimp only
      apply Kinds.modReq_same
      · rw [hrec]
        exact hk
      · exact fun c hc => hc
      · rfl
      · rfl
  | unlink p c =>
      apply hk.modReq_same
      · intro x hx
        exact List.mem_of_mem_filter hx
      · rfl
      · rfl
  | link p c _ hp hc _ =>
      apply hk.modReq
      · intro x hx
        rcases List.mem_append.mp hx with hx | hx
        · exact hk.lists (.merged p) x hx
        · obtain rfl := List.mem_singleton.mp hx
          exact ⟨hp, hc⟩
      · intro he
        cases p with
        | mshr core i => exact hk.entry core i
        | pool n => exact he.elim
        | wb n => exact he.elim
      · intro _
        exact ⟨rfl, rfl⟩
  | release core r hr hmerge =>
      have hreq : Kinds cfg (books ((s.record (.freed r)).modReq r MemReq.init)) := by
        apply Kinds.modReq
        · exact hk
        · intro c hc
          exact hk.lists (.merged r) c hc
        · intro _
          refine ⟨by simp [MemReq.init], ?_⟩
          simp [MemReq.init, MemConfig.writeThrough]
        · intro hne
          exact absurd hr hne
      have hmshr := hreq.setMshr core (l := (s.mshr core).filter (· ≠ r)) (by
        intro x hx
        exact hk.mshr core x (List.mem_of_mem_filter hx))
      have hfree := hmshr.setHeld (k := .free core) (l := s.mshrFreeList core ++ [r]) (by
        intro x hx
        rcases List.mem_append.mp hx with hx | hx
        · exact hk.lists (.free core) x hx
        · obtain rfl := List.mem_singleton.mp hx
          exact hr)
      refine cast (congrArg (Kinds cfg) ?_) hfree
      unfold books
      congr 1
      funext k
      cases k with
      | free c =>
          by_cases hc : c = core
          · subst hc
            simp [held]
          · simp [held, hc, Mem.modReq, Mem.record]
      | _ => rfl
  | delete r _ _ _ => exact hk
  | recycle n hn =>
      have hpool := hk.setHeld (k := .pool) (l := .pool n :: s.memReqPool) (by
        intro x hx
        rcases List.mem_cons.mp hx with rfl | hx
        · exact ⟨n, hn, rfl⟩
        · exact hk.lists .pool x hx)
      refine cast (congrArg (Kinds cfg) ?_) hpool
      unfold books
      congr 1
      funext k
      cases k <;> rfl
  | allocate core h =>
      obtain ⟨r, hlast, heq⟩ := Option.map_eq_some_iff.mp h
      obtain ⟨rfl, rfl⟩ := Prod.mk.inj heq
      have hmem : r ∈ s.mshrFreeList core := List.mem_of_getLast? hlast
      have hmshr := hk.setMshr core (l := s.mshr core ++ [r]) (by
        intro x hx
        rcases List.mem_append.mp hx with hx | hx
        · exact hk.mshr core x hx
        · obtain rfl := List.mem_singleton.mp hx
          exact hk.lists (.free core) x hmem)
      have hfree := hmshr.setHeld (k := .free core) (l := (s.mshrFreeList core).dropLast) (by
        intro x hx
        exact hk.lists (.free core) x (List.mem_of_mem_dropLast hx))
      refine cast (congrArg (Kinds cfg) ?_) hfree
      unfold books
      congr 1
      funext k
      cases k with
      | free c =>
          by_cases hc : c = core
          · subst hc
            simp [held]
          · simp [held, hc]
      | _ => rfl
  | start r a _ hr htype hwt h => exact hk.initNewReq hr htype hwt h
  | startPool a _ hwt h => exact hk.startPool hwt h
  | adjust r a _ hr htype _ hwt =>
      apply hk.modReq
      · intro c hc
        exact hk.lists (.merged r) c hc
      · intro _
        exact ⟨htype, hwt⟩
      · intro hne
        exact absurd hr hne
  | carry net rx dram hnet hrx hdram =>
      refine ⟨hk.entry, hk.pool, hk.wb, hk.mshr, ?_⟩
      intro k r hr
      cases k with
      | net =>
          obtain ⟨p, hp, rfl⟩ := List.mem_map.mp hr
          exact hnet p hp
      | rx d => exact hrx d r hr
      | dram => exact (hdram r hr).1
      | free c => exact hk.lists (.free c) r hr
      | pool => exact hk.lists .pool r hr
      | merged p => exact hk.lists (.merged p) r hr
      | queue q => exact hk.lists (.queue q) r hr
      | retry d => exact hk.lists (.retry d) r hr

end

/-! ## Caches -/

section

variable {cfg : MemConfig} {sc : Scope} {s s' : Mem}

/-- A change of a cache unit changes the cache of that unit only. -/
theorem cache_modDcu (d : DcuId) (f : Dcu → Dcu) (e : DcuId) :
    ((s.modDcu d f).dcu e).cache = if e = d then (f (s.dcu d)).cache else (s.dcu e).cache := by
  by_cases he : e = d
  · subst he
    simp [Mem.modDcu]
  · simp [Mem.modDcu, he]

/-- Setting a queue leaves the caches alone. -/
theorem cache_setEntries (q : QueueId) (l : List ReqId) (e : DcuId) :
    ((s.setEntries q l).dcu e).cache = (s.dcu e).cache := by
  rw [Mem.setEntries, cache_modDcu]
  split
  · rename_i he
    rw [he]
  · rfl

/-- Putting a request into a queue leaves the caches alone. -/
theorem cache_push (q : QueueId) (r : ReqId) (e : DcuId) :
    ((s.push cfg q r).1.dcu e).cache = (s.dcu e).cache := by
  unfold Mem.push
  split
  · rfl
  · exact cache_setEntries q _ e

/-- The cache of a level after a move: the same, or one of the same geometry, which keeps its
dirty lines unless the scope says otherwise. -/
theorem MemMove.cache (hm : MemMove cfg sc s s') (e : DcuId) :
    (s'.dcu e).cache = (s.dcu e).cache ∨
      ((sc.cache e ∨ KeepsDirty (s.dcu e).cache (s'.dcu e).cache) ∧
        ∀ c' ∈ (s'.dcu e).cache, ∃ c ∈ (s.dcu e).cache, c'.param = c.param) := by
  cases hm with
  | aside ha =>
      rw [ha.dcu]
      exact .inl rfl
  | level d f _ _ hcache hparam =>
      rw [cache_modDcu]
      by_cases he : e = d
      · subst he
        rw [if_pos rfl]
        exact .inr ⟨hcache, hparam⟩
      · rw [if_neg he]
        exact .inl rfl
  | push q r _ _ _ => exact .inl (cache_push q r e)
  | pop q r => exact .inl (cache_setEntries q _ e)
  | retry d l _ =>
      rw [cache_modDcu]
      split
      · rename_i he
        rw [he]
        exact .inl rfl
      · exact .inl rfl
  | finish r _ _ =>
      unfold Mem.markDone
      dsimp only
      split <;> exact .inl rfl
  | allocate core ha =>
      obtain ⟨r, -, heq⟩ := Option.map_eq_some_iff.mp ha
      obtain ⟨rfl, rfl⟩ := Prod.mk.inj heq
      exact .inl rfl
  | start r a _ _ _ _ hi =>
      unfold Mem.initNewReq at hi
      split at hi
      · cases hi
        exact .inl rfl
      · cases hi
  | startPool a _ _ hi =>
      unfold Mem.initNewReq at hi
      split at hi
      · cases hi
        unfold Mem.acquireEntry
        split <;> exact .inl rfl
      · cases hi
  | _ => exact .inl rfl

/-- A move keeps the parameters of every cache. -/
theorem MemMove.param (hm : MemMove cfg sc s s') (e : DcuId) :
    ∀ c' ∈ (s'.dcu e).cache, ∃ c ∈ (s.dcu e).cache, c'.param = c.param := by
  rcases hm.cache e with heq | ⟨-, hparam⟩
  · rw [heq]
    exact fun c hc => ⟨c, hc, rfl⟩
  · exact hparam

/-- A move keeps the dirty lines of caches outside its scope. -/
theorem MemMove.lineDirty (hm : MemMove cfg sc s s') {e : DcuId} (he : ¬ sc.cache e) (a : Addr)
    (h : s.lineDirty e a = true) : s'.lineDirty e a = true := by
  rcases hm.cache e with heq | ⟨hcache | hkeeps, -⟩
  · rw [Mem.lineDirty, heq]
    exact h
  · exact absurd hcache he
  · exact hkeeps a h

end

end MacSim.Analysis
