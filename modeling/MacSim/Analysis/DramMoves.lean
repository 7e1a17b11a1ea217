import MacSim.Computation.Partial
import MacSim.Model.DramCtrl
import Mathlib.Logic.Relation

/-!
# The DRAM controller as elementary moves

Every routine of `dram_ctrl_c` is a sequence of the moves listed here, each about one entry or
one request.  The routines that go over a list of entries rely on the entries of a bank being
where they should be, so the moves come together with the invariant `Tidy`: the three places
of a bank hold exactly the entries that were made for it, and an entry that is in use has a
request.

The merge of requests first serves all merged entries and then releases them.  Serving and
releasing touch different fields, so the two loops are one loop of `merge` moves.
-/

set_option autoImplicit false

namespace MacSim.Analysis.Dram

open MacSim.Model MacSim.Computation

variable {k : DramKnobs} {s s' : DramCtrl} {b r : ℕ} {e : DrbId} {l : List DrbId}

/-! ## Entries in their places -/

/-- The entries of bank `b` that are in use. -/
def inUse (s : DramCtrl) (b : ℕ) : List DrbId := s.buffer b ++ (s.currentList b).toList

/-- The places of every bank hold its entries, and entries in use have a request. -/
structure Tidy (k : DramKnobs) (s : DramCtrl) : Prop where
  stock : ∀ b, (inUse s b ++ s.bufferFreeList b).Perm (k.slots b)
  named : ∀ b, ∀ e ∈ inUse s b, (s.entry e).req.isSome

/-- The slots of a bank are pairwise different. -/
theorem slots_nodup (k : DramKnobs) (b : ℕ) : (k.slots b).Nodup := by
  refine List.Nodup.map ?_ List.nodup_range
  intro i j hij
  simpa using hij

/-- A slot of a bank carries the number of that bank. -/
theorem bank_of_mem_slots (h : e ∈ k.slots b) : e.bank = b := by
  obtain ⟨i, -, rfl⟩ := List.mem_map.mp h
  rfl

/-- A list without one of its entries, when no entry is twice in it. -/
theorem perm_cons_filter_ne {α : Type} [DecidableEq α] {l : List α} {a : α} (hl : l.Nodup)
    (ha : a ∈ l) : (a :: l.filter (· ≠ a)).Perm l := by
  have herase : l.erase a = l.filter (· ≠ a) := by
    rw [hl.erase_eq_filter]
    apply List.filter_congr
    intro x _
    by_cases hx : x = a <;> simp [hx]
  rw [← herase]
  exact (List.perm_cons_erase ha).symm

namespace Tidy

/-- What a tidy bank holds and what it has free are pairwise different. -/
theorem nodup (h : Tidy k s) (b : ℕ) : (inUse s b ++ s.bufferFreeList b).Nodup :=
  (h.stock b).nodup_iff.mpr (slots_nodup k b)

/-- Every slot of a tidy bank carries the number of that bank. -/
theorem bank_eq (h : Tidy k s) (he : e ∈ inUse s b ++ s.bufferFreeList b) : e.bank = b :=
  bank_of_mem_slots ((h.stock b).mem_iff.mp he)

/-- Every slot that a tidy bank holds carries its number. -/
theorem bank_inUse (h : Tidy k s) (he : e ∈ inUse s b) : e.bank = b :=
  h.bank_eq (List.mem_append_left _ he)

/-- Every slot that a tidy bank has free carries its number. -/
theorem bank_free (h : Tidy k s) (he : e ∈ s.bufferFreeList b) : e.bank = b :=
  h.bank_eq (List.mem_append_right _ he)

/-- The buffer of a tidy bank has no repetition. -/
theorem nodup_buffer (h : Tidy k s) (b : ℕ) : (s.buffer b).Nodup :=
  (List.nodup_append.mp (List.nodup_append.mp (h.nodup b)).1).1

/-- An entry in service is not in the buffer. -/
theorem current_notMem (h : Tidy k s) (he : s.currentList b = some e) : e ∉ s.buffer b := by
  intro hmem
  have hnd := (List.nodup_append.mp (h.nodup b)).1
  rw [inUse, he] at hnd
  exact (List.nodup_append.mp hnd).2.2 e hmem e (by simp) rfl

/-- A free entry is not in use, at any bank. -/
theorem free_notMem (h : Tidy k s) (he : e ∈ s.bufferFreeList b) (c : ℕ) : e ∉ inUse s c := by
  intro hmem
  obtain rfl : b = c := (h.bank_free he).symm.trans (h.bank_inUse hmem)
  exact (List.nodup_append.mp (h.nodup b)).2.2 e hmem e he rfl

/-- Two banks use different entries. -/
theorem ne_of_bank_ne (h : Tidy k s) {c : ℕ} {i : DrbId} (he : e ∈ inUse s b)
    (hi : i ∈ inUse s c) (hbc : c ≠ b) : i ≠ e := by
  rintro rfl
  exact hbc ((h.bank_inUse hi).symm.trans (h.bank_inUse he))

end Tidy

/-! ## The moves -/

/-- The request `r`, next in the receive queue, is put into the free entry `e`. -/
def acceptReq (k : DramKnobs) (s : DramCtrl) (r : ℕ) (rest : List ℕ) (e : DrbId)
    (free : List DrbId) : DramCtrl :=
  let place := k.map.parseAddr k.bankXorIndex (s.reqs r).addr
  let s := s.insertReqInDrb r place place.bid.toNat e free
  let s := { s with
    totalReq := s.totalReq + 1
    accepted := s.accepted ++ [r]
    rows := s.rows ++ [place.rid] }
  let s := s.modifyReq r fun req => { req with state := .dramStart }
  { s with incoming := rest }

/-- The prefetch `r` of the entry `e` is freed. -/
def flushReq (s : DramCtrl) (b : ℕ) (e : DrbId) (r : ℕ) : DramCtrl :=
  { s with
    flushed := s.flushed ++ [(r, (s.reqs r).type)]
    bufferFreeList := Function.update s.bufferFreeList b (s.bufferFreeList b ++ [e])
    buffer := Function.update s.buffer b ((s.buffer b).filter (· ≠ e))
    totalReq := s.totalReq - 1 }

/-- The entry `e` in service leaves its bank with the request `r`. -/
def finishEntry (k : DramKnobs) (s : DramCtrl) (b : ℕ) (e : DrbId) (finish r : ℕ) : DramCtrl :=
  let s := s.retire k finish r
  let s := s.modifyEntry e fun _ => DrbEntry.reset
  let s := s.note b .complete
  { s with
    bufferFreeList := Function.update s.bufferFreeList b (s.bufferFreeList b ++ [e])
    currentList := Function.update s.currentList b none
    dataReady := Function.update s.dataReady b none
    numCompletedInLastCycle := s.numCompletedInLastCycle + 1
    totalReq := s.totalReq - 1 }

/-- The entry `e` may be given the next command. -/
def wakeEntry (s : DramCtrl) (b : ℕ) (e : DrbId) : DramCtrl :=
  let s := s.modifyEntry e fun entry => { entry with state := .cmd }
  { s with
    bankReady := Function.update s.bankReady b none
    bankTimestamp := Function.update s.bankTimestamp b s.cycle }

/-- One elementary change of a controller. -/
inductive DramMove (k : DramKnobs) : DramCtrl → DramCtrl → Prop
  | count (s : DramCtrl) (completed starvation : ℤ) :
      DramMove k s { s with numCompletedInLastCycle := completed, starvationCycle := starvation }
  | tick (s : DramCtrl) : DramMove k s s.tick
  | arrive (s : DramCtrl) (req : DramReq) : DramMove k s (s.arrive req)
  | adjust (s : DramCtrl) (r : ℕ) (req : DramReq) (hr : r < s.arrived)
      (hold : (s.reqs r).type = .dprf) (hnew : req.type ≠ .wb) :
      DramMove k s (s.adjustReq r req)
  | accept (s : DramCtrl) (r : ℕ) (rest : List ℕ) (e : DrbId) (free : List DrbId)
      (hin : s.incoming = r :: rest)
      (hfree : s.bufferFreeList (k.map.parseAddr k.bankXorIndex (s.reqs r).addr).bid.toNat =
        e :: free) :
      DramMove k s (acceptReq k s r rest e free)
  | flush (s : DramCtrl) (b : ℕ) (e : DrbId) (r : ℕ) (hb : b < k.numBank)
      (he : e ∈ s.buffer b) (hr : (s.entry e).req = some r) (ht : (s.reqs r).type = .dprf) :
      DramMove k s (flushReq s b e r)
  | merge (s : DramCtrl) (b : ℕ) (e : DrbId) (finish r : ℕ) (hb : b < k.numBank)
      (he : e ∈ s.buffer b) (hr : (s.entry e).req = some r) (hf : finish ≤ s.cycle) :
      DramMove k s ((s.retire k finish r).releaseEntry b e)
  | finish (s : DramCtrl) (b : ℕ) (e : DrbId) (finish r : ℕ) (hb : b < k.numBank)
      (he : s.currentList b = some e) (hr : (s.entry e).req = some r)
      (hd : s.dataReady b = some finish) (hf : finish ≤ s.cycle)
      (hst : (s.entry e).state = .dataWait) :
      DramMove k s (finishEntry k s b e finish r)
  | select (s : DramCtrl) (b : ℕ) (e : DrbId) (buffer : List DrbId) (hb : b < k.numBank)
      (hc : s.currentList b = none) (hp : buffer.Perm (s.buffer b)) (he : e ∈ buffer) :
      DramMove k s (s.selectEntry b e buffer)
  | wake (s : DramCtrl) (b : ℕ) (e : DrbId) (he : s.currentList b = some e)
      (hst : (s.entry e).state = .cmdWait) (hr : s.reached (s.bankReady b) = true) :
      DramMove k s (wakeEntry s b e)
  | mark (s : DramCtrl) (r : ℕ) (st : MemReqState) :
      DramMove k s (s.modifyReq r fun req => { req with state := st })
  | command (s : DramCtrl) (b : ℕ) (e : DrbId) (he : s.currentList b = some e)
      (hst : (s.entry e).state = .cmd) : DramMove k s (s.issueCommand k b e)
  | transfer (s : DramCtrl) (ii b : ℕ) (e : DrbId) (he : s.currentList b = some e)
      (hst : (s.entry e).state = .data) (hr : s.reached (s.dataAvail b) = true)
      (hbus : s.availDataBus ii = true) : DramMove k s (s.transfer k ii b e)
  | delay (s : DramCtrl) (hd : k.delayed = true) : DramMove k s s.delayPacket
  | send (s : DramCtrl) (accepts : ℕ → Bool) : DramMove k s (s.send k accepts)

/-- A sequence of moves. -/
def DramMoves (k : DramKnobs) : DramCtrl → DramCtrl → Prop :=
  Relation.ReflTransGen (DramMove k)

/-! ## What a move leaves alone -/

/-- The banks and the clock are the same. -/
structure SameBanks (s s' : DramCtrl) : Prop where
  entry : s'.entry = s.entry
  buffer : s'.buffer = s.buffer
  bufferFreeList : s'.bufferFreeList = s.bufferFreeList
  currentList : s'.currentList = s.currentList
  currentRid : s'.currentRid = s.currentRid
  bankReady : s'.bankReady = s.bankReady
  dataReady : s'.dataReady = s.dataReady
  dataAvail : s'.dataAvail = s.dataAvail
  byteAvail : s'.byteAvail = s.byteAvail
  dbusReady : s'.dbusReady = s.dbusReady
  totalReq : s'.totalReq = s.totalReq
  cycle : s'.cycle = s.cycle
  trace : s'.trace = s.trace
  rows : s'.rows = s.rows

/-- Every entry is where it was, with the same request and the same row, and nothing is
different outside the banks. -/
structure SameTraffic (s s' : DramCtrl) : Prop where
  req : ∀ e, (s'.entry e).req = (s.entry e).req
  rid : ∀ e, (s'.entry e).rid = (s.entry e).rid
  buffer : s'.buffer = s.buffer
  bufferFreeList : s'.bufferFreeList = s.bufferFreeList
  currentList : s'.currentList = s.currentList
  totalReq : s'.totalReq = s.totalReq
  cycle : s'.cycle = s.cycle
  reqs : s'.reqs = s.reqs
  incoming : s'.incoming = s.incoming
  outputBuffer : s'.outputBuffer = s.outputBuffer
  tmpOutputBuffer : s'.tmpOutputBuffer = s.tmpOutputBuffer
  arrived : s'.arrived = s.arrived
  reclassified : s'.reclassified = s.reclassified
  accepted : s'.accepted = s.accepted
  rows : s'.rows = s.rows
  flushed : s'.flushed = s.flushed
  retired : s'.retired = s.retired
  completed : s'.completed = s.completed
  sent : s'.sent = s.sent

/-- A state differs from itself outside the banks only. -/
theorem SameBanks.refl (s : DramCtrl) : SameBanks s s := by
  constructor <;> rfl

/-- Two differences outside the banks compose. -/
theorem SameBanks.trans {t : DramCtrl} (h : SameBanks s s') (h' : SameBanks s' t) :
    SameBanks s t where
  entry := h'.entry.trans h.entry
  buffer := h'.buffer.trans h.buffer
  bufferFreeList := h'.bufferFreeList.trans h.bufferFreeList
  currentList := h'.currentList.trans h.currentList
  currentRid := h'.currentRid.trans h.currentRid
  bankReady := h'.bankReady.trans h.bankReady
  dataReady := h'.dataReady.trans h.dataReady
  dataAvail := h'.dataAvail.trans h.dataAvail
  byteAvail := h'.byteAvail.trans h.byteAvail
  dbusReady := h'.dbusReady.trans h.dbusReady
  totalReq := h'.totalReq.trans h.totalReq
  cycle := h'.cycle.trans h.cycle
  trace := h'.trace.trans h.trace
  rows := h'.rows.trans h.rows

/-- Retiring a request leaves the banks alone. -/
theorem sameBanks_retire (s : DramCtrl) (finish r : ℕ) : SameBanks s (s.retire k finish r) := by
  unfold DramCtrl.retire
  split
  · constructor <;> rfl
  · dsimp only
    split <;> constructor <;> rfl

/-- A change of a request leaves the banks alone. -/
theorem sameBanks_modifyReq (s : DramCtrl) (r : ℕ) (f : DramReq → DramReq) :
    SameBanks s (s.modifyReq r f) := by
  constructor <;> rfl

/-- Adjusting a request leaves the banks alone. -/
theorem sameBanks_adjustReq (s : DramCtrl) (r : ℕ) (req : DramReq) :
    SameBanks s (s.adjustReq r req) := by
  unfold DramCtrl.adjustReq
  dsimp only
  split <;> constructor <;> rfl

/-- The scan that sends requests leaves the banks alone. -/
theorem sameBanks_sendScan (accepts : ℕ → Bool) (allowed : Bool → Bool) (l : List ℕ)
    (t : DramCtrl.SendState) :
    SameBanks t.ctrl (DramCtrl.sendScan accepts allowed l t).ctrl := by
  induction l generalizing t with
  | nil => exact SameBanks.refl _
  | cons r rest ih =>
      unfold DramCtrl.sendScan
      dsimp only
      split
      · split
        · refine SameBanks.trans ?_ (ih _)
          constructor <;> rfl
        · constructor <;> rfl
      · exact ih t

/-- Sending requests leaves the banks alone. -/
theorem sameBanks_send (s : DramCtrl) (accepts : ℕ → Bool) : SameBanks s (s.send k accepts) := by
  have hround (u : DramCtrl.SendState) : SameBanks u.ctrl (DramCtrl.sendRound accepts u).ctrl :=
    sameBanks_sendScan _ _ _ _
  have hrounds : SameBanks s (DramCtrl.sendRounds k accepts s).ctrl := by
    unfold DramCtrl.sendRounds
    extract_lets t
    have ht : SameBanks s t.ctrl := hround ⟨fun _ => false, [], s⟩
    split
    · exact ht.trans (hround t)
    · exact ht
  refine hrounds.trans ?_
  constructor <;> rfl

/-- A field of the entries that the update of one entry keeps. -/
theorem update_field {β : Type} {t : DrbId → DrbEntry} {e : DrbId} {x : DrbEntry}
    (g : DrbEntry → β) (h : g x = g (t e)) (i : DrbId) :
    g (Function.update t e x i) = g (t i) := by
  rw [Function.update_apply]
  split
  · rename_i hi
    rw [h, hi]
  · rfl

/-- Waking an entry moves no request. -/
theorem sameTraffic_wakeEntry (s : DramCtrl) (b : ℕ) (e : DrbId) :
    SameTraffic s (wakeEntry s b e) := by
  constructor
  case req => exact update_field (·.req) rfl
  case rid => exact update_field (·.rid) rfl
  all_goals rfl

/-- Issuing a command moves no request. -/
theorem sameTraffic_issueCommand (s : DramCtrl) (b : ℕ) (e : DrbId) :
    SameTraffic s (s.issueCommand k b e) := by
  unfold DramCtrl.issueCommand
  dsimp only
  split
  · constructor
    case req => exact update_field (·.req) rfl
    case rid => exact update_field (·.rid) rfl
    all_goals rfl
  · split
    · constructor
      case req => exact update_field (·.req) rfl
      case rid => exact update_field (·.rid) rfl
      all_goals rfl
    · constructor
      case req => exact update_field (·.req) rfl
      case rid => exact update_field (·.rid) rfl
      all_goals rfl

/-- A transfer on the data bus moves no request. -/
theorem sameTraffic_transfer (s : DramCtrl) (ii b : ℕ) (e : DrbId) :
    SameTraffic s (s.transfer k ii b e) := by
  unfold DramCtrl.transfer DramCtrl.acquireDataBus
  dsimp only
  split
  · constructor
    case req => exact update_field (·.req) rfl
    case rid => exact update_field (·.rid) rfl
    all_goals rfl
  · constructor
    case req => exact update_field (·.req) rfl
    case rid => exact update_field (·.rid) rfl
    all_goals rfl

/-! ## The moves keep the entries in their places -/

namespace Tidy

/-- A state with the same banks is as tidy. -/
theorem of_sameBanks (h : Tidy k s) (hs : SameBanks s s') : Tidy k s' where
  stock b := by
    rw [inUse, hs.buffer, hs.currentList, hs.bufferFreeList]
    exact h.stock b
  named b e he := by
    rw [inUse, hs.buffer, hs.currentList] at he
    rw [hs.entry]
    exact h.named b e he

/-- A state with the same traffic is as tidy. -/
theorem of_sameTraffic (h : Tidy k s) (hs : SameTraffic s s') : Tidy k s' where
  stock b := by
    rw [inUse, hs.buffer, hs.currentList, hs.bufferFreeList]
    exact h.stock b
  named b e he := by
    rw [inUse, hs.buffer, hs.currentList] at he
    rw [hs.req]
    exact h.named b e he

/-- One bank is rearranged, and the entry `e` of that bank is rewritten. -/
theorem rearrange (h : Tidy k s) (he : e.bank = b)
    (hentry : ∀ i, i ≠ e → s'.entry i = s.entry i)
    (hother : ∀ c, c ≠ b → inUse s' c = inUse s c ∧ s'.bufferFreeList c = s.bufferFreeList c)
    (hperm : (inUse s' b ++ s'.bufferFreeList b).Perm (inUse s b ++ s.bufferFreeList b))
    (huse : ∀ i ∈ inUse s' b, i ≠ e → i ∈ inUse s b)
    (hnamed : e ∈ inUse s' b → (s'.entry e).req.isSome) : Tidy k s' where
  stock c := by
    by_cases hc : c = b
    · subst hc
      exact hperm.trans (h.stock c)
    · rw [(hother c hc).1, (hother c hc).2]
      exact h.stock c
  named c i hi := by
    by_cases hie : i = e
    · subst hie
      by_cases hc : c = b
      · subst hc
        exact hnamed hi
      · rw [(hother c hc).1] at hi
        exact absurd ((h.bank_inUse hi).symm.trans he) hc
    · rw [hentry i hie]
      by_cases hc : c = b
      · subst hc
        exact h.named c i (huse i hi hie)
      · rw [(hother c hc).1] at hi
        exact h.named c i hi

end Tidy

/-! The four rearrangements of a bank. -/

/-- An entry goes from the free list to the buffer. -/
theorem perm_take_free {buf free : List DrbId} (cur : List DrbId) (e : DrbId) :
    ((buf ++ [e]) ++ cur ++ free).Perm (buf ++ cur ++ (e :: free)) := by
  rw [List.perm_iff_count]
  intro i
  simp only [List.count_append, List.count_cons, List.count_nil]
  omega

/-- An entry goes from the buffer to the free list. -/
theorem perm_release {buf free : List DrbId} (cur : List DrbId) (hn : buf.Nodup) (he : e ∈ buf) :
    (buf.filter (· ≠ e) ++ cur ++ (free ++ [e])).Perm (buf ++ cur ++ free) := by
  rw [List.perm_iff_count]
  intro i
  have hbuf := (perm_cons_filter_ne hn he).count_eq i
  simp only [List.count_append, List.count_cons, List.count_nil] at hbuf ⊢
  omega

/-- An entry goes from the buffer into service. -/
theorem perm_select {buf buffer free : List DrbId} (hn : buf.Nodup) (hp : buffer.Perm buf)
    (he : e ∈ buffer) :
    (buffer.filter (· ≠ e) ++ (some e).toList ++ free).Perm (buf ++ (none : Option DrbId).toList ++ free) := by
  rw [List.perm_iff_count]
  intro i
  have hbuf := (perm_cons_filter_ne (hp.nodup_iff.mpr hn) he).count_eq i
  have hcount := hp.count_eq i
  simp only [List.count_append, List.count_cons, List.count_nil, Option.toList] at hbuf ⊢
  omega

/-- An entry goes from service to the free list. -/
theorem perm_finish {buf free : List DrbId} (e : DrbId) :
    (buf ++ (none : Option DrbId).toList ++ (free ++ [e])).Perm (buf ++ (some e).toList ++ free) := by
  rw [List.perm_iff_count]
  intro i
  simp only [List.count_append, List.count_cons, List.count_nil, Option.toList]
  omega

/-- The entries in use at a bank, after an update of one buffer. -/
theorem inUse_update (hbuf : s'.buffer = Function.update s.buffer b l)
    (hcur : s'.currentList = s.currentList) (c : ℕ) :
    inUse s' c = if c = b then l ++ (s.currentList b).toList else inUse s c := by
  rw [inUse, hbuf, hcur, Function.update_apply]
  split
  · rename_i hc
    rw [hc]
  · rfl

/-- A buffered entry is one that its bank holds. -/
theorem mem_inUse_of_buffer (he : e ∈ s.buffer b) : e ∈ inUse s b := List.mem_append_left _ he

/-- A current entry is one that its bank holds. -/
theorem mem_inUse_of_current (he : s.currentList b = some e) : e ∈ inUse s b := by
  rw [inUse, he]
  exact List.mem_append_right _ (by simp)

namespace Tidy

/-- Accepting a request keeps the controller tidy. -/
theorem acceptReq {rest : List ℕ} {free : List DrbId} (h : Tidy k s)
    (hfree : s.bufferFreeList (k.map.parseAddr k.bankXorIndex (s.reqs r).addr).bid.toNat =
      e :: free) : Tidy k (acceptReq k s r rest e free) := by
  generalize hb : (k.map.parseAddr k.bankXorIndex (s.reqs r).addr).bid.toNat = b at hfree
  have hbuf : (Dram.acceptReq k s r rest e free).buffer =
      Function.update s.buffer b (s.buffer b ++ [e]) := by
    subst hb
    rfl
  have hfr : (Dram.acceptReq k s r rest e free).bufferFreeList =
      Function.update s.bufferFreeList b free := by
    subst hb
    rfl
  have huse := inUse_update hbuf rfl
  refine h.rearrange (e := e) (b := b) (h.bank_free (by rw [hfree]; simp)) ?_ ?_ ?_ ?_ ?_
  · intro i hi
    exact Function.update_of_ne hi _ _
  · intro c hc
    rw [huse, if_neg hc, hfr, Function.update_of_ne hc]
    exact ⟨rfl, rfl⟩
  · rw [huse, if_pos rfl, hfr, Function.update_self, hfree]
    exact perm_take_free _ e
  · intro i hi hie
    rw [huse, if_pos rfl] at hi
    simp only [List.mem_append, List.mem_singleton, hie, or_false] at hi
    exact List.mem_append.mpr hi
  · intro _
    have : ((Dram.acceptReq k s r rest e free).entry e).req = some r := by
      show (Function.update s.entry e _ e).req = some r
      rw [Function.update_self]
      rfl
    rw [this]
    rfl

/-- An entry leaves the buffer for the free list. -/
theorem release (h : Tidy k s) (he : e ∈ s.buffer b)
    (hbuf : s'.buffer = Function.update s.buffer b ((s.buffer b).filter (· ≠ e)))
    (hfree : s'.bufferFreeList =
      Function.update s.bufferFreeList b (s.bufferFreeList b ++ [e]))
    (hcur : s'.currentList = s.currentList)
    (hentry : ∀ i, i ≠ e → s'.entry i = s.entry i) : Tidy k s' := by
  have huse := inUse_update hbuf hcur
  refine h.rearrange (e := e) (b := b) (h.bank_inUse (mem_inUse_of_buffer he)) hentry ?_ ?_ ?_ ?_
  · intro c hc
    rw [huse, if_neg hc, hfree, Function.update_of_ne hc]
    exact ⟨rfl, rfl⟩
  · rw [huse, if_pos rfl, hfree, Function.update_self]
    exact perm_release _ (h.nodup_buffer b) he
  · intro i hi hie
    rw [huse, if_pos rfl] at hi
    simp only [List.mem_append, List.mem_filter] at hi
    exact List.mem_append.mpr (hi.imp (·.1) id)
  · intro hmem
    rw [huse, if_pos rfl] at hmem
    rcases List.mem_append.mp hmem with hmem | hmem
    · simp at hmem
    · have hcurrent : s.currentList b = some e := by simpa using hmem
      exact absurd he (h.current_notMem hcurrent)

/-- An entry leaves its bank for the free list. -/
theorem finish (h : Tidy k s) (he : s.currentList b = some e) (hbuf : s'.buffer = s.buffer)
    (hfree : s'.bufferFreeList =
      Function.update s.bufferFreeList b (s.bufferFreeList b ++ [e]))
    (hcur : s'.currentList = Function.update s.currentList b none)
    (hentry : ∀ i, i ≠ e → s'.entry i = s.entry i) : Tidy k s' := by
  have hself : inUse s' b = s.buffer b ++ (none : Option DrbId).toList := by
    rw [inUse, hbuf, hcur, Function.update_self]
  refine h.rearrange (e := e) (b := b) (h.bank_inUse (mem_inUse_of_current he)) hentry ?_ ?_ ?_ ?_
  · intro c hc
    rw [inUse, hbuf, hcur, hfree, Function.update_of_ne hc, Function.update_of_ne hc]
    exact ⟨rfl, rfl⟩
  · rw [hself, hfree, Function.update_self, inUse, he]
    exact perm_finish e
  · intro i hi _
    rw [hself] at hi
    exact mem_inUse_of_buffer (by simpa using hi)
  · intro hmem
    rw [hself] at hmem
    exact absurd (by simpa using hmem) (h.current_notMem he)

/-- Selecting an entry keeps the controller tidy. -/
theorem selectEntry {buffer : List DrbId} (h : Tidy k s) (hc : s.currentList b = none)
    (hp : buffer.Perm (s.buffer b)) (he : e ∈ buffer) :
    Tidy k (s.selectEntry b e buffer) := by
  have hbuf : (s.selectEntry b e buffer).buffer =
      Function.update s.buffer b (buffer.filter (· ≠ e)) := rfl
  have hcur : (s.selectEntry b e buffer).currentList =
      Function.update s.currentList b (some e) := rfl
  have hself : inUse (s.selectEntry b e buffer) b =
      buffer.filter (· ≠ e) ++ (some e).toList := by
    rw [inUse, hbuf, hcur, Function.update_self, Function.update_self]
  have hmem : e ∈ inUse s b := mem_inUse_of_buffer (hp.mem_iff.mp he)
  refine h.rearrange (e := e) (b := b) (h.bank_inUse hmem) ?_ ?_ ?_ ?_ ?_
  · intro i hi
    exact Function.update_of_ne hi _ _
  · intro c hc'
    refine ⟨?_, rfl⟩
    rw [inUse, hbuf, hcur, Function.update_of_ne hc', Function.update_of_ne hc', inUse]
  · rw [hself, inUse, hc]
    exact perm_select (h.nodup_buffer b) hp he
  · intro i hi hie
    rw [hself] at hi
    rcases List.mem_append.mp hi with hi | hi
    · exact mem_inUse_of_buffer (hp.mem_iff.mp (List.mem_of_mem_filter hi))
    · exact absurd (by simpa using hi) hie
  · intro _
    have hreq : ((s.selectEntry b e buffer).entry e).req = (s.entry e).req := by
      show (Function.update s.entry e _ e).req = _
      rw [Function.update_self]
    rw [hreq]
    exact h.named b e hmem

/-- Every move keeps the entries in their places. -/
theorem move (h : Tidy k s) (hm : DramMove k s s') : Tidy k s' := by
  cases hm with
  | count | arrive | mark | delay => exact h.of_sameBanks (by constructor <;> rfl)
  | tick => exact ⟨h.stock, h.named⟩
  | adjust r req => exact h.of_sameBanks (sameBanks_adjustReq s r req)
  | accept r rest e free _ hfree => exact h.acceptReq hfree
  | flush b e r _ he => exact h.release he rfl rfl rfl fun _ _ => rfl
  | merge b e finish r _ he =>
      have hsame := sameBanks_retire (k := k) s finish r
      refine (h.of_sameBanks hsame).release (b := b) (e := e) ?_ rfl rfl rfl ?_
      · rw [hsame.buffer]
        exact he
      · intro i hi
        exact Function.update_of_ne hi _ _
  | finish b e finish r _ he =>
      have hsame := sameBanks_retire (k := k) s finish r
      refine (h.of_sameBanks hsame).finish (b := b) (e := e) ?_ rfl rfl rfl ?_
      · rw [hsame.currentList]
        exact he
      · intro i hi
        exact Function.update_of_ne hi _ _
  | select b e buffer _ hc hp he => exact h.selectEntry hc hp he
  | wake b e => exact h.of_sameTraffic (sameTraffic_wakeEntry s b e)
  | command b e => exact h.of_sameTraffic (sameTraffic_issueCommand s b e)
  | transfer ii b e => exact h.of_sameTraffic (sameTraffic_transfer s ii b e)
  | send accepts => exact h.of_sameBanks (sameBanks_send s accepts)

/-- Any sequence of moves keeps the controller tidy. -/
theorem moves (h : Tidy k s) (hm : DramMoves k s s') : Tidy k s' := by
  induction hm with
  | refl => exact h
  | tail _ hstep ih => exact ih.move hstep

end Tidy

/-! ## The routines are sequences of moves -/

/-- A loop whose body is a sequence of moves is one. -/
theorem foldlM_moves {α : Type} {f : DramCtrl → α → Option DramCtrl} (xs : List α)
    (h : Tidy k s) (hf : ∀ t, Tidy k t → ∀ a ∈ xs, Ensures (f t a) (DramMoves k t)) :
    Ensures (xs.foldlM f s) (DramMoves k s) := by
  refine Ensures.foldlM xs s .refl ?_
  intro t ht a ha
  exact (hf t (h.moves ht) a ha).mono fun u hu => ht.trans hu

/-- The body of a loop may use what it did to the state so far. -/
theorem ensures_trans {x : Option DramCtrl} (hm : DramMoves k s s')
    (hx : Ensures x (DramMoves k s')) : Ensures x (DramMoves k s) :=
  hx.mono fun _ hu => hm.trans hu

/-- An entry of type prefetch carries a request of type prefetch. -/
theorem entryType_eq (h : s.entryType e = some .dprf) :
    ∃ r, (s.entry e).req = some r ∧ (s.reqs r).type = .dprf := by
  obtain ⟨r, hr, ht⟩ := Option.map_eq_some_iff.mp h
  exact ⟨r, hr, ht⟩

/-- The flush loop makes moves only, when it is given buffered prefetches. -/
theorem flushLoop_moves (hb : b < k.numBank) (l : List DrbId) (hl : l.Nodup)
    (hmem : ∀ e ∈ l, e ∈ s.buffer b ∧ s.entryType e = some .dprf) :
    Ensures (l.foldlM (DramCtrl.flushEntry b) s) (DramMoves k s) := by
  induction l generalizing s with
  | nil => exact Ensures.of_some .refl
  | cons e l ih =>
      obtain ⟨he, ht⟩ := hmem e List.mem_cons_self
      obtain ⟨r, hr, hty⟩ := entryType_eq ht
      obtain ⟨hel, hl⟩ := List.nodup_cons.mp hl
      have hflush : DramCtrl.flushEntry b s e = some (flushReq s b e r) := by
        rw [DramCtrl.flushEntry, hr]
        rfl
      rw [List.foldlM_cons, hflush]
      refine ensures_trans (.single (.flush s b e r hb he hr hty)) (ih hl ?_)
      intro i hi
      obtain ⟨hib, hit⟩ := hmem i (List.mem_cons_of_mem e hi)
      refine ⟨?_, hit⟩
      have hne : i ≠ e := fun hie => hel (hie ▸ hi)
      show i ∈ Function.update s.buffer b _ b
      rw [Function.update_self]
      simp [hib, hne]

/-- Flushing the prefetches of a bank makes moves only. -/
theorem flushPrefetch_moves (h : Tidy k s) (hb : b < k.numBank) :
    Ensures (s.flushPrefetch b) (DramMoves k s) := by
  refine flushLoop_moves hb _ ((h.nodup_buffer b).filter _) ?_
  intro e he
  obtain ⟨he, ht⟩ := List.mem_filter.mp he
  exact ⟨he, by simpa using ht⟩

/-- Flushing does not touch requests or the receive queue. -/
theorem flushPrefetch_frame (s : DramCtrl) (b : ℕ) :
    Ensures (s.flushPrefetch b) fun t => t.reqs = s.reqs ∧ t.incoming = s.incoming := by
  refine Ensures.foldlM _ s ⟨rfl, rfl⟩ ?_
  intro t ht e _
  refine Ensures.map Ensures.trivial ?_
  intro r _
  exact ht

/-- The bank of an address is a bank of the controller. -/
theorem bid_lt_numBank (k : DramKnobs) (addr : Addr) :
    (k.map.parseAddr k.bankXorIndex addr).bid.toNat < k.numBank :=
  AddrKnobs.bid_lt _ _ _ k.banks_pos (k.banks_lt.trans (by norm_num))

/-- Making room changes neither the requests nor the receive queue. -/
theorem makeRoom_moves (h : Tidy k s) (hb : b < k.numBank) :
    Ensures (s.makeRoom b) fun t =>
      DramMoves k s t ∧ t.reqs = s.reqs ∧ t.incoming = s.incoming := by
  unfold DramCtrl.makeRoom
  split
  · intro t ht
    exact ⟨flushPrefetch_moves h hb t ht, flushPrefetch_frame s _ t ht⟩
  · exact Ensures.of_some ⟨.refl, rfl, rfl⟩

/-- Receiving requests makes moves only. -/
theorem receive_moves (h : Tidy k s) : Ensures (s.receive k) (DramMoves k s) := by
  unfold DramCtrl.receive
  cases hin : s.incoming with
  | nil => exact Ensures.of_some .refl
  | cons r rest =>
      unfold DramCtrl.insertNewReq
      dsimp only
      have hb := bid_lt_numBank k (s.reqs r).addr
      generalize hplace : k.map.parseAddr k.bankXorIndex (s.reqs r).addr = place at hb
      intro u hu
      obtain ⟨p, hp, hu⟩ := Option.bind_eq_some_iff.mp hu
      obtain ⟨t, ht, hp⟩ := Option.bind_eq_some_iff.mp hp
      obtain ⟨ht, hreqs, htin⟩ := makeRoom_moves h hb t ht
      cases hfree : t.bufferFreeList place.bid.toNat with
      | nil =>
          rw [hfree] at hp
          cases hp
          cases hu
          exact ht
      | cons e free =>
          rw [hfree] at hp
          cases hp
          cases hu
          have hplace' : k.map.parseAddr k.bankXorIndex (t.reqs r).addr = place := by
            rw [hreqs, hplace]
          have hmove := DramMove.accept (k := k) t r rest e free (htin.trans hin)
            (by rw [hplace']; exact hfree)
          rw [acceptReq, hplace'] at hmove
          exact ht.tail hmove

/-! Merging: the entries are served in one loop and released in another. -/

/-- Serving one entry and releasing another do not interfere. -/
theorem mergeEntry_releaseEntry {i : DrbId} (finish : ℕ) (hne : i ≠ e) :
    DramCtrl.mergeEntry k finish (s.releaseEntry b e) i =
      (DramCtrl.mergeEntry k finish s i).map fun t => t.releaseEntry b e := by
  have hreq : ((s.releaseEntry b e).entry i).req = (s.entry i).req := by
    show (Function.update s.entry e _ i).req = _
    rw [Function.update_of_ne hne]
  rw [DramCtrl.mergeEntry, DramCtrl.mergeEntry, hreq]
  cases (s.entry i).req with
  | none => rfl
  | some r =>
      simp only [Option.map_some, Option.some.injEq]
      unfold DramCtrl.retire
      by_cases hw : (s.reqs r).type = .wb
      · rw [if_pos hw, if_pos (show ((s.releaseEntry b e).reqs r).type = .wb from hw)]
        rfl
      · rw [if_neg hw, if_neg (show ¬ ((s.releaseEntry b e).reqs r).type = .wb from hw)]
        cases k.delayed <;> rfl

/-- Releasing an entry commutes with a merge loop that does not name it. -/
theorem mergeLoop_releaseEntry (finish : ℕ) (l : List DrbId) (he : e ∉ l) :
    l.foldlM (DramCtrl.mergeEntry k finish) (s.releaseEntry b e) =
      (l.foldlM (DramCtrl.mergeEntry k finish) s).map fun t => t.releaseEntry b e := by
  induction l generalizing s with
  | nil => rfl
  | cons i l ih =>
      have hne : i ≠ e := fun hie => he (hie ▸ List.mem_cons_self)
      rw [List.foldlM_cons, List.foldlM_cons, mergeEntry_releaseEntry finish hne]
      cases DramCtrl.mergeEntry k finish s i with
      | none => rfl
      | some t => exact ih fun hmem => he (List.mem_cons_of_mem i hmem)

/-- What merging into the entry in service leaves alone. -/
structure SameService (l : List DrbId) (s s' : DramCtrl) : Prop where
  currentList : s'.currentList = s.currentList
  dataReady : s'.dataReady = s.dataReady
  cycle : s'.cycle = s.cycle
  entry : ∀ e, e ∉ l → s'.entry e = s.entry e

/-- The merge loop and the releases after it make moves only, and serve each of its entries. -/
theorem mergeLoop_moves (hb : b < k.numBank) {finish : ℕ} (hf : finish ≤ s.cycle)
    (l : List DrbId) (hl : l.Nodup) (hmem : ∀ e ∈ l, e ∈ s.buffer b) :
    Ensures (l.foldlM (DramCtrl.mergeEntry k finish) s) fun t =>
      DramMoves k s (l.foldl (DramCtrl.releaseEntry b) t) ∧
        SameService l s (l.foldl (DramCtrl.releaseEntry b) t) := by
  induction l generalizing s with
  | nil => exact Ensures.of_some ⟨.refl, ⟨rfl, rfl, rfl, fun _ _ => rfl⟩⟩
  | cons e l ih =>
      obtain ⟨hel, hl⟩ := List.nodup_cons.mp hl
      intro t ht
      rw [List.foldlM_cons] at ht
      obtain ⟨s0, hs0, ht⟩ := Option.bind_eq_some_iff.mp ht
      obtain ⟨r, hr, rfl⟩ := Option.map_eq_some_iff.mp hs0
      -- the entry is released at once instead of at the end
      set s1 : DramCtrl :=
        { s.retire k finish r with
          numCompletedInLastCycle := (s.retire k finish r).cycle } with hs1
      have hsame := sameBanks_retire (k := k) s finish r
      have hrest : l.foldlM (DramCtrl.mergeEntry k finish) (s1.releaseEntry b e) =
          some (t.releaseEntry b e) := by
        rw [mergeLoop_releaseEntry finish l hel, ht]
        rfl
      have hcycle : (s1.releaseEntry b e).cycle = s.cycle := hsame.cycle
      have hbuf : (s1.releaseEntry b e).buffer b = (s.buffer b).filter (· ≠ e) := by
        show Function.update (s.retire k finish r).buffer b
          (((s.retire k finish r).buffer b).filter (· ≠ e)) b = _
        rw [Function.update_self, hsame.buffer]
      obtain ⟨hmoves, hserv⟩ := ih (by rw [hcycle]; exact hf) hl (fun i hi => by
        have hne : i ≠ e := fun hie => hel (hie ▸ hi)
        rw [hbuf]
        simp [hmem i (List.mem_cons_of_mem e hi), hne]) _ hrest
      have hfirst : DramMoves k s (s1.releaseEntry b e) :=
        .tail (.single (.merge s b e finish r hb (hmem e List.mem_cons_self) hr hf))
          (.count _ _ _)
      refine ⟨hfirst.trans hmoves, ⟨?_, ?_, ?_, ?_⟩⟩
      · exact hserv.currentList.trans hsame.currentList
      · exact hserv.dataReady.trans hsame.dataReady
      · exact hserv.cycle.trans hcycle
      · intro i hi
        have hie : i ≠ e := fun hie => hi (hie ▸ List.mem_cons_self)
        have hil : i ∉ l := fun hil => hi (List.mem_cons_of_mem e hil)
        rw [List.foldl_cons, hserv.entry i hil]
        show Function.update (s.retire k finish r).entry e _ i = _
        rw [Function.update_of_ne hie, hsame.entry]

/-- Merging keeps the entry in service as it is. -/
theorem mergeRequests_moves {finish : ℕ} (h : Tidy k s) (hb : b < k.numBank)
    (hf : finish ≤ s.cycle) (he : s.currentList b = some e) :
    Ensures (s.mergeRequests k b e finish) fun t =>
      DramMoves k s t ∧ t.currentList = s.currentList ∧ t.dataReady = s.dataReady ∧
        t.cycle = s.cycle ∧ t.entry e = s.entry e := by
  unfold DramCtrl.mergeRequests
  split
  · intro t ht
    obtain ⟨u, hu, ht⟩ := Option.bind_eq_some_iff.mp ht
    cases ht
    have hsub : ∀ i ∈ s.sameAddr b e, i ∈ s.buffer b := fun i hi => List.mem_of_mem_filter hi
    obtain ⟨hmoves, hserv⟩ :=
      mergeLoop_moves hb hf _ ((h.nodup_buffer b).filter _) hsub u hu
    exact ⟨hmoves, hserv.currentList, hserv.dataReady, hserv.cycle,
      hserv.entry e fun hmem => h.current_notMem he (hsub e hmem)⟩
  · exact Ensures.of_some ⟨.refl, rfl, rfl, rfl, rfl⟩

/-- The completion of a bank makes moves only. -/
theorem completeBank_moves (h : Tidy k s) (hb : b < k.numBank) :
    Ensures (s.completeBank k b) (DramMoves k s) := by
  unfold DramCtrl.completeBank
  split
  · rename_i e finish he hd
    split
    · rename_i hf
      split
      · rename_i hst
        intro u hu
        obtain ⟨t, ht, hu⟩ := Option.bind_eq_some_iff.mp hu
        obtain ⟨hmoves, hcur, hdr, hcy, hentry⟩ := mergeRequests_moves h hb hf he t ht
        obtain ⟨r, hr, rfl⟩ := Option.map_eq_some_iff.mp hu
        refine hmoves.tail (.finish t b e finish r hb ?_ hr ?_ ?_ ?_)
        · rw [hcur, he]
        · rw [hdr, hd]
        · rw [hcy]
          exact hf
        · rw [hentry, hst]
      · exact Ensures.of_none
    · exact Ensures.of_some .refl
  · exact Ensures.of_some .refl

/-- The completion of all banks makes moves only. -/
theorem bankScheduleComplete_moves (h : Tidy k s) :
    Ensures (s.bankScheduleComplete k) (DramMoves k s) := by
  have hcount : DramMove k s { s with numCompletedInLastCycle := 0 } :=
    .count s 0 s.starvationCycle
  refine ensures_trans (.single hcount) (foldlM_moves _ (h.move hcount) ?_)
  intro t ht b hb
  exact completeBank_moves ht (List.mem_range.mp hb)

/-- A schedule rearranges the buffer. -/
theorem schedule_perm (s : DramCtrl) (buffer : List DrbId) :
    (s.schedule k buffer).Perm buffer := by
  unfold DramCtrl.schedule
  cases k.policy with
  | fcfs => exact List.Perm.refl _
  | frfcfs => exact List.mergeSort_perm _ _

/-- The selection of a bank makes moves only. -/
theorem newBank_moves (hb : b < k.numBank) : Ensures (s.newBank k b) (DramMoves k s) := by
  unfold DramCtrl.newBank
  split
  · rename_i hc
    split
    · exact Ensures.of_some .refl
    · have hp := schedule_perm (k := k) s (s.buffer b)
      split
      · exact Ensures.of_none
      · rename_i e rest hsched
        rw [hsched] at hp
        exact Ensures.of_some (.single (.select s b e _ hb hc hp List.mem_cons_self))
  · rename_i e he
    split
    · rename_i hw
      exact Ensures.of_some (.single (.wake s b e he hw.2 hw.1))
    · exact Ensures.of_some .refl

/-- The selection of all banks makes moves only. -/
theorem bankScheduleNew_moves (h : Tidy k s) :
    Ensures (s.bankScheduleNew k) (DramMoves k s) := by
  refine foldlM_moves _ h ?_
  intro t _ b hb
  exact newBank_moves (List.mem_range.mp hb)

/-- The best bank so far stays a ready bank. -/
theorem pickLoop_ready {ready : ℕ → Bool} (banks : List ℕ) {best : Option ℕ}
    (hbest : ∀ j ∈ best, ready j = true) :
    ∀ j ∈ banks.foldl (fun best jj =>
      if ready jj ∧ best.all (s.bankTimestamp jj < s.bankTimestamp ·) then some jj
      else best) best, ready j = true := by
  induction banks generalizing best with
  | nil => exact hbest
  | cons jj banks ih =>
      refine ih ?_
      intro j hj
      dsimp only at hj
      split at hj
      · rename_i hready
        obtain rfl := Option.mem_some_iff.mp hj
        exact hready.1
      · exact hbest j hj

/-- The bank that is picked is ready. -/
theorem pickBank_ready {ready : ℕ → Bool} {banks : List ℕ}
    (h : s.pickBank ready banks = some b) : ready b = true :=
  pickLoop_ready banks (by simp) b h

/-- The state that is asked about is that of the current entry. -/
theorem currentIn_eq {st : DramState} (h : s.currentIn b st = true)
    (he : s.currentList b = some e) : (s.entry e).state = st := by
  rw [DramCtrl.currentIn, he] at h
  simpa using h

/-- The command of a channel makes moves only. -/
theorem channelCmd_moves (ii : ℕ) : Ensures (s.channelCmd k ii) (DramMoves k s) := by
  unfold DramCtrl.channelCmd
  split
  · exact Ensures.of_some .refl
  · rename_i b hpick
    have hst := pickBank_ready hpick
    split
    · exact Ensures.of_none
    · rename_i e he
      refine Ensures.map (P := fun t => ∃ r, t = s.modifyReq r fun req =>
        { req with state := .dramCmd }) ?_ ?_
      · intro t ht
        obtain ⟨r, -, rfl⟩ := Option.map_eq_some_iff.mp ht
        exact ⟨r, rfl⟩
      · rintro t ⟨r, rfl⟩
        exact .tail (.single (.mark s r .dramCmd)) (.command _ b e he (currentIn_eq hst he))

/-- The commands of all channels make moves only. -/
theorem channelScheduleCmd_moves (h : Tidy k s) :
    Ensures (s.channelScheduleCmd k) (DramMoves k s) :=
  foldlM_moves _ h fun _ _ ii _ => channelCmd_moves ii

/-- The data loop of a channel makes moves only. -/
theorem channelDataLoop_moves (ii rounds : ℕ) :
    Ensures (s.channelDataLoop k ii rounds) (DramMoves k s) := by
  induction rounds generalizing s with
  | zero => exact Ensures.of_some .refl
  | succ rounds ih =>
      unfold DramCtrl.channelDataLoop
      split
      · rename_i hbus
        split
        · exact Ensures.of_some .refl
        · rename_i b hpick
          have hready := pickBank_ready hpick
          rw [Bool.and_eq_true] at hready
          split
          · exact Ensures.of_none
          · rename_i e he
            intro u hu
            obtain ⟨t, ht, hu⟩ := Option.bind_eq_some_iff.mp hu
            obtain ⟨r, -, rfl⟩ := Option.map_eq_some_iff.mp ht
            refine ensures_trans (.tail (.single (.mark s r .dramData)) ?_) ih u hu
            exact .transfer _ ii b e he (currentIn_eq hready.1 he) hready.2 hbus
      · exact Ensures.of_some .refl

/-- The data of all channels make moves only. -/
theorem channelScheduleData_moves (h : Tidy k s) :
    Ensures (s.channelScheduleData k) (DramMoves k s) :=
  foldlM_moves _ h fun _ _ ii _ => channelDataLoop_moves ii _

/-- The progress check makes no move of its own. -/
theorem progressCheck_moves : Ensures s.progressCheck (DramMoves k s) := by
  unfold DramCtrl.progressCheck
  extract_lets starvation
  split
  · exact Ensures.of_none
  · exact Ensures.of_some (.single (.count s _ _))

/-- Delaying packets makes moves only. -/
theorem delayed_moves (s : DramCtrl) :
    DramMoves k s (if k.delayed then s.delayPacket else s) := by
  split
  · rename_i hd
    exact .single (.delay s hd)
  · exact .refl

/-- Sequencing of routines. -/
theorem bind_moves {x : Option DramCtrl} {f : DramCtrl → Option DramCtrl} (h : Tidy k s)
    (hx : Ensures x (DramMoves k s)) (hf : ∀ t, Tidy k t → Ensures (f t) (DramMoves k t)) :
    Ensures (x.bind f) (DramMoves k s) :=
  Ensures.bind hx fun t ht => ensures_trans ht (hf t (h.moves ht))

/-- A whole cycle makes moves only. -/
theorem runACycle_moves (pllLock : Bool) (accepts : ℕ → Bool) (h : Tidy k s) :
    Ensures (s.runACycle k pllLock accepts) (DramMoves k s) := by
  unfold DramCtrl.runACycle
  split
  · exact Ensures.of_some (.single (.tick s))
  · have hout : DramMoves k s _ := .trans (.single (.send s accepts)) (delayed_moves _)
    refine ensures_trans hout ?_
    have h := h.moves hout
    refine bind_moves h (channelScheduleCmd_moves h) fun t h => ?_
    refine bind_moves h (channelScheduleData_moves h) fun t h => ?_
    refine bind_moves h (bankScheduleComplete_moves h) fun t h => ?_
    refine bind_moves h (bankScheduleNew_moves h) fun t h => ?_
    refine bind_moves h (receive_moves h) fun t h => ?_
    exact bind_moves h progressCheck_moves fun t _ => Ensures.of_some (.single (.tick t))

/-- Every action is a sequence of moves. -/
theorem step_moves (h : Tidy k s) (a : DramAction) : Ensures (s.step k a) (DramMoves k s) := by
  cases a with
  | arrive req => exact Ensures.of_some (.single (.arrive s req))
  | adjustReq r req =>
      simp only [DramCtrl.step]
      split
      · rename_i hc
        exact Ensures.of_some (.single (.adjust s r req hc.1 hc.2.1 hc.2.2.2))
      · exact Ensures.of_none
  | runACycle pllLock accepts => exact runACycle_moves pllLock accepts h
  | send accepts => exact Ensures.of_some (.single (.send s accepts))
  | delayPacket =>
      simp only [DramCtrl.step]
      split
      · rename_i hd
        exact Ensures.of_some (.single (.delay s hd))
      · exact Ensures.of_none
  | channelScheduleCmd => exact channelScheduleCmd_moves h
  | channelScheduleData => exact channelScheduleData_moves h
  | bankScheduleComplete => exact bankScheduleComplete_moves h
  | bankScheduleNew => exact bankScheduleNew_moves h
  | receive => exact receive_moves h
  | flushPrefetch b =>
      simp only [DramCtrl.step]
      split
      · rename_i hb
        exact flushPrefetch_moves h hb
      · exact Ensures.of_none
  | tick => exact Ensures.of_some (.single (.tick s))

/-! ## Invariants of all runs -/

/-- The controller is tidy when it starts. -/
theorem tidy_new (completed starvation : ℤ) (reqs : ℕ → DramReq) :
    Tidy k (DramCtrl.new k completed starvation reqs) where
  stock b := List.Perm.refl _
  named b e he := by simp [inUse, DramCtrl.new] at he

/-- What holds at the start and is kept by every move from a tidy state holds in every run. -/
theorem reachable_induction {I : DramCtrl → Prop}
    (hnew : ∀ completed starvation reqs, I (DramCtrl.new k completed starvation reqs))
    (hmove : ∀ s s', Tidy k s → I s → DramMove k s s' → I s') (h : s.Reachable k) :
    Tidy k s ∧ I s := by
  induction h with
  | new completed starvation reqs =>
      exact ⟨tidy_new completed starvation reqs, hnew completed starvation reqs⟩
  | step a _ hs ih =>
      have hmoves := step_moves ih.1 a _ hs
      clear hs
      induction hmoves with
      | refl => exact ih
      | tail _ hm ih' => exact ⟨ih'.1.move hm, hmove _ _ ih'.1 ih'.2 hm⟩

/-- Every reachable controller is tidy. -/
theorem reachable_tidy (h : s.Reachable k) : Tidy k s :=
  (reachable_induction (I := fun _ => True) (fun _ _ _ => trivial) (fun _ _ _ _ _ => trivial) h).1

end MacSim.Analysis.Dram
