import Mathlib.Data.FinEnum
import MacSim.Computation.Table
import MacSim.Model.DramRamulator

/-!
# The service of the Ramulator controller

Ramulator's callbacks say which address is done, not which request, so the controller hands each
callback the oldest request of its kind for that address.  As many requests wait for an address
as Ramulator owes callbacks for it; a callback therefore always finds one, and each request is
found once.
-/

set_option autoImplicit false

namespace MacSim.Analysis

open MacSim.Model
open MacSim.Computation

variable {σ : Type}

/-- What the controller relies on: Ramulator owes one callback for every request that it has
accepted, with the address and the type it was given, and pays in later ticks. -/
structure WrapperPromise (w : RamulatorWrapper σ) (owed : σ → Multiset RamuRequest) : Prop where
  accepted : ∀ st q, (w.send st q).2 = true → owed (w.send st q).1 = q ::ₘ owed st
  refused : ∀ st q, (w.send st q).2 = false → owed (w.send st q).1 = owed st
  ticked : ∀ st, owed st = ((w.tick st).2 : Multiset RamuRequest) + owed (w.tick st).1

/-! ## The queues -/

/-- The requests of a kind that wait for the callback of an address. -/
def waitingFor (s : DramRamulator σ) (isWrite : Bool) (addr : Addr) : List ℕ :=
  ((if isWrite then s.ramuWrites else s.ramuReads) addr).getD []

/-- The entries of one of the maps. -/
def entries (s : DramRamulator σ) (isWrite : Bool) : ℕ :=
  ∑ addr, (waitingFor s isWrite addr).length

/-- How often one of the maps holds a request. -/
def holds (s : DramRamulator σ) (isWrite : Bool) (r : ℕ) : ℕ :=
  ∑ addr, (waitingFor s isWrite addr).count r

/-- The numbers of the requests of a kind for an address. -/
def keyed (l : List (ℕ × RamuRequest)) (isWrite : Bool) (addr : Addr) : List ℕ :=
  (l.filter fun p => p.2.isWrite = isWrite ∧ p.2.addr = addr).map Prod.fst

/-- The numbers of the requests of a kind. -/
def ofKind (l : List (ℕ × RamuRequest)) (isWrite : Bool) : List ℕ :=
  (l.filter fun p => p.2.isWrite = isWrite).map Prod.fst

/-- One more request with its address joins the end of its own list. -/
theorem keyed_concat (l : List (ℕ × RamuRequest)) (r : ℕ) (q : RamuRequest) (isWrite : Bool)
    (addr : Addr) : keyed (l ++ [(r, q)]) isWrite addr =
      keyed l isWrite addr ++ if q.isWrite = isWrite ∧ q.addr = addr then [r] else [] := by
  rw [keyed, List.filter_append, List.map_append, ← keyed]
  by_cases h : q.isWrite = isWrite ∧ q.addr = addr <;> simp [h]

/-- One more request of its kind joins the end of that kind. -/
theorem ofKind_concat (l : List (ℕ × RamuRequest)) (r : ℕ) (q : RamuRequest) (isWrite : Bool) :
    ofKind (l ++ [(r, q)]) isWrite =
      ofKind l isWrite ++ if q.isWrite = isWrite then [r] else [] := by
  rw [ofKind, List.filter_append, List.map_append, ← ofKind]
  by_cases h : q.isWrite = isWrite <;> simp [h]

/-- The requests for an address are as many as Ramulator was given with it. -/
theorem length_keyed (l : List (ℕ × RamuRequest)) (isWrite : Bool) (addr : Addr) :
    (keyed l isWrite addr).length =
      (l.map Prod.snd : Multiset RamuRequest).countP
        fun q => q.isWrite = isWrite ∧ q.addr = addr := by
  rw [keyed, List.length_map, Multiset.coe_countP, List.countP_map, List.countP_eq_length_filter]
  rfl

/-- Taking the first request of an address leaves the others at that address. -/
theorem popFront_of_getD {m : Addr → Option (List ℕ)} {addr : Addr} {r : ℕ} {rest : List ℕ}
    (h : (m addr).getD [] = r :: rest) :
    DramRamulator.popFront m addr =
      some (r, Function.update m addr (if rest = [] then none else some rest)) := by
  unfold DramRamulator.popFront
  cases hmap : m addr with
  | none => simp [hmap] at h
  | some l =>
    obtain rfl : l = r :: rest := by simpa [hmap] using h
    rfl

/-- What a callback does. -/
structure CalledBack (s : DramRamulator σ) (q : RamuRequest) (r : ℕ) (rest : List ℕ)
    (s' : DramRamulator σ) : Prop where
  queue : ∀ isWrite addr, waitingFor s' isWrite addr =
    if isWrite = q.isWrite ∧ addr = q.addr then rest else waitingFor s isWrite addr
  reads : s'.ramuReads q.addr ≠ some [] ∧ ∀ a ≠ q.addr, s'.ramuReads a = s.ramuReads a
  writes : s'.ramuWrites q.addr ≠ some [] ∧ ∀ a ≠ q.addr, s'.ramuWrites a = s.ramuWrites a
  inFlight : s'.requestsInFlight = s.requestsInFlight - 1
  completed : s'.completed = s.completed ++ [(r, q)]
  freed : s'.freed = s.freed ++ if q.isWrite then [r] else []
  responses : s'.ramuRespQueue = s.ramuRespQueue ++ if q.isWrite then [] else [r]
  received : s'.received = s.received
  incoming : s'.incoming = s.incoming
  arrived : s'.arrived = s.arrived
  sent : s'.sent = s.sent
  wrapper : s'.wrapper = s.wrapper
  types : ∀ i, (s'.reqs i).type = (s.reqs i).type

/-- A callback finds the oldest request of its kind for its address. -/
theorem callback_of_waiting {s : DramRamulator σ} {q : RamuRequest} {r : ℕ} {rest : List ℕ}
    (hreads : ∀ a, s.ramuReads a ≠ some []) (hwrites : ∀ a, s.ramuWrites a ≠ some [])
    (h : waitingFor s q.isWrite q.addr = r :: rest) :
    ∃ s', s.callback q = some s' ∧ CalledBack s q r rest s' := by
  have hgetD : ((if rest = [] then none else some rest : Option (List ℕ)).getD []) = rest := by
    by_cases hrest : rest = [] <;> simp [hrest]
  have hsome : (if rest = [] then none else some rest : Option (List ℕ)) ≠ some [] := by
    by_cases hrest : rest = [] <;> simp [hrest]
  have htypes : ∀ i, (Function.update s.reqs r { s.reqs r with state := .dramDone } i).type =
      (s.reqs i).type := by
    intro i
    by_cases hi : i = r
    · subst hi
      simp
    · simp [hi]
  cases hq : q.isWrite with
  | true =>
    rw [hq] at h
    have hpop := popFront_of_getD (m := s.ramuWrites) h
    have hstep : s.callback q = some { s with
        ramuWrites := Function.update s.ramuWrites q.addr (if rest = [] then none else some rest)
        requestsInFlight := s.requestsInFlight - 1
        reqs := Function.update s.reqs r { s.reqs r with state := .dramDone }
        freed := s.freed ++ [r]
        completed := s.completed ++ [(r, q)] } := by
      rw [DramRamulator.callback, if_pos hq, DramRamulator.writeComplete, hpop]
      rfl
    refine ⟨_, hstep, ⟨fun isWrite addr => ?_, ⟨hreads _, fun a _ => rfl⟩, ⟨?_, fun a ha => ?_⟩, rfl, rfl,
      ?_, ?_, rfl, rfl, rfl, rfl, rfl, htypes⟩⟩
    · cases isWrite with
      | false => simp [waitingFor, hq]
      | true =>
        by_cases ha : addr = q.addr
        · subst ha
          simpa [waitingFor, hq] using hgetD
        · simp [waitingFor, ha]
    · simp
    · simp [ha]
    · simp [hq]
    · simp [hq]
  | false =>
    rw [hq] at h
    have hpop := popFront_of_getD (m := s.ramuReads) h
    have hstep : s.callback q = some { s with
        ramuReads := Function.update s.ramuReads q.addr (if rest = [] then none else some rest)
        requestsInFlight := s.requestsInFlight - 1
        reqs := Function.update s.reqs r { s.reqs r with state := .dramDone }
        ramuRespQueue := s.ramuRespQueue ++ [r]
        completed := s.completed ++ [(r, q)] } := by
      rw [DramRamulator.callback, if_neg (by simp [hq]), DramRamulator.readComplete, hpop]
      rfl
    refine ⟨_, hstep, ⟨fun isWrite addr => ?_, ⟨?_, fun a ha => ?_⟩, ⟨hwrites _, fun a _ => rfl⟩, rfl, rfl,
      ?_, ?_, rfl, rfl, rfl, rfl, rfl, htypes⟩⟩
    · cases isWrite with
      | true => simp [waitingFor, hq]
      | false =>
        by_cases ha : addr = q.addr
        · subst ha
          simpa [waitingFor, hq] using hgetD
        · simp [waitingFor, ha]
    · simp
    · simp [ha]
    · simp [hq]
    · simp [hq]

/-! ## The invariant -/

/-- The books of the controller when Ramulator owes the callbacks `owed`. -/
structure Service (owed : Multiset RamuRequest) (s : DramRamulator σ) : Prop where
  reads : ∀ a, s.ramuReads a ≠ some []
  writes : ∀ a, s.ramuWrites a ≠ some []
  /-- per kind and address, requests complete in the order in which they were received -/
  fifo : ∀ isWrite addr, keyed s.received isWrite addr =
    keyed s.completed isWrite addr ++ waitingFor s isWrite addr
  called : (s.received.map Prod.snd : Multiset RamuRequest) =
    (s.completed.map Prod.snd : Multiset RamuRequest) + owed
  conserved : ∀ r, (s.received.map Prod.fst).count r =
    (s.completed.map Prod.fst).count r + holds s false r + holds s true r
  inFlight : s.requestsInFlight = entries s false + entries s true
  responses : s.sent.map DramSent.req ++ s.ramuRespQueue = ofKind s.completed false
  retired : s.freed = ofKind s.completed true
  fills : ∀ m ∈ s.sent, m.msgType = .fill
  kinds : ∀ p ∈ s.received, (p.2.isWrite = true ↔ (s.reqs p.1).type = .wb)
  known : ∀ r ∈ s.received.map Prod.fst ++ s.incoming, r < s.arrived
  nodup : (s.received.map Prod.fst ++ s.incoming).Nodup

/-- As many requests wait for an address as Ramulator owes callbacks for it. -/
theorem Service.length_waitingFor {owed : Multiset RamuRequest} {s : DramRamulator σ}
    (h : Service owed s) (isWrite : Bool) (addr : Addr) :
    (waitingFor s isWrite addr).length =
      owed.countP fun q => q.isWrite = isWrite ∧ q.addr = addr := by
  have hfifo := congrArg List.length (h.fifo isWrite addr)
  rw [List.length_append, length_keyed, length_keyed, h.called, Multiset.countP_add] at hfifo
  omega

/-- The requests waiting are changed at one kind and one address. -/
theorem waitingFor_eq_update {s s' : DramRamulator σ} {isWrite : Bool} {addr : Addr}
    {l : List ℕ}
    (h : ∀ k a, waitingFor s' k a =
      if k = isWrite ∧ a = addr then l else waitingFor s k a) (k : Bool) :
    waitingFor s' k =
      if k = isWrite then Function.update (waitingFor s k) addr l else waitingFor s k := by
  funext a
  rw [h]
  by_cases hk : k = isWrite
  · rw [if_pos hk, Function.update_apply]
    simp only [hk, true_and]
  · rw [if_neg hk, if_neg fun hka => hk hka.1]

/-- A sum over the queues of both kinds when the front of one is taken. -/
theorem sum_waitingFor_pop {s s' : DramRamulator σ} {q : RamuRequest} {r : ℕ} {rest : List ℕ}
    (h : CalledBack s q r rest s') (hwait : waitingFor s q.isWrite q.addr = r :: rest)
    (g : List ℕ → ℕ) (z : ℕ) (hg : g (r :: rest) = g rest + z) :
    ∑ a, g (waitingFor s false a) + ∑ a, g (waitingFor s true a) =
      ∑ a, g (waitingFor s' false a) + ∑ a, g (waitingFor s' true a) + z := by
  have hpop : ∑ a, g (waitingFor s q.isWrite a) =
      ∑ a, g (Function.update (waitingFor s q.isWrite) q.addr rest a) + z :=
    sum_update_sub g (Finset.mem_univ _) (by rw [hwait]; exact hg)
  rw [waitingFor_eq_update h.queue false, waitingFor_eq_update h.queue true]
  cases hq : q.isWrite with
  | true =>
    rw [hq] at hpop
    simp only [Bool.false_eq_true, if_false, if_true]
    omega
  | false =>
    rw [hq] at hpop
    simp only [Bool.true_eq_false, if_false, if_true]
    omega

/-- A callback that Ramulator owes finds its request and keeps the books. -/
theorem Service.callback {owed : Multiset RamuRequest} {q : RamuRequest} {s : DramRamulator σ}
    (h : Service (q ::ₘ owed) s) : ∃ s', s.callback q = some s' ∧ Service owed s' ∧
      s'.wrapper = s.wrapper ∧ s'.received = s.received ∧ s.completed <+: s'.completed := by
  have hlen := h.length_waitingFor q.isWrite q.addr
  rw [Multiset.countP_cons_of_pos _ ⟨rfl, rfl⟩] at hlen
  obtain ⟨r, rest, hwait⟩ : ∃ r rest, waitingFor s q.isWrite q.addr = r :: rest := by
    cases hq : waitingFor s q.isWrite q.addr with
    | nil => simp [hq] at hlen
    | cons r rest => exact ⟨r, rest, rfl⟩
  obtain ⟨s', hstep, hback⟩ := callback_of_waiting h.reads h.writes hwait
  have hsnd : s'.completed.map Prod.snd = s.completed.map Prod.snd ++ [q] := by
    rw [hback.completed, List.map_append]
    rfl
  refine ⟨s', hstep, ⟨fun a => ?_, fun a => ?_, fun k a => ?_, ?_, fun i => ?_, ?_, ?_, ?_, ?_, ?_,
    ?_, ?_⟩, hback.wrapper, hback.received, ⟨_, hback.completed.symm⟩⟩
  · by_cases ha : a = q.addr
    · rw [ha]
      exact hback.reads.1
    · rw [hback.reads.2 a ha]
      exact h.reads a
  · by_cases ha : a = q.addr
    · rw [ha]
      exact hback.writes.1
    · rw [hback.writes.2 a ha]
      exact h.writes a
  · rw [hback.received, hback.completed, hback.queue, keyed_concat, h.fifo]
    by_cases hka : k = q.isWrite ∧ a = q.addr
    · obtain ⟨rfl, rfl⟩ := hka
      rw [if_pos ⟨rfl, rfl⟩, if_pos ⟨rfl, rfl⟩, hwait, List.append_assoc, List.singleton_append]
    · rw [if_neg hka, if_neg fun hqa => hka ⟨hqa.1.symm, hqa.2.symm⟩, List.append_nil]
  · rw [hback.received, hsnd, h.called, ← Multiset.coe_add, add_assoc]
    rfl
  · have hsum := sum_waitingFor_pop hback hwait (List.count i) (if r = i then 1 else 0)
      (by rw [List.count_cons]; simp [beq_iff_eq])
    have hcons := h.conserved i
    rw [hback.received, hback.completed, List.map_append, List.count_append]
    have hone : List.count i (List.map Prod.fst [(r, q)]) = if r = i then 1 else 0 := by
      simp [List.count_cons]
    simp only [holds] at hcons ⊢
    omega
  · have hsum := sum_waitingFor_pop hback hwait List.length 1 (List.length_cons)
    have hflight := h.inFlight
    rw [hback.inFlight]
    simp only [entries] at hflight ⊢
    omega
  · rw [hback.sent, hback.responses, hback.completed, ofKind_concat, ← h.responses,
      ← List.append_assoc]
    cases q.isWrite <;> rfl
  · rw [hback.freed, hback.completed, ofKind_concat, ← h.retired]
  · rw [hback.sent]
    exact h.fills
  · rw [hback.received]
    intro p hp
    rw [hback.types]
    exact h.kinds p hp
  · rw [hback.received, hback.incoming, hback.arrived]
    exact h.known
  · rw [hback.received, hback.incoming]
    exact h.nodup

/-- All callbacks of a tick find their requests. -/
theorem Service.callbacks {owed : Multiset RamuRequest} {called : List RamuRequest}
    {s : DramRamulator σ} (h : Service ((called : Multiset RamuRequest) + owed) s) :
    ∃ s', s.callbacks called = some s' ∧ Service owed s' ∧ s'.wrapper = s.wrapper ∧
      s'.received = s.received ∧ s.completed <+: s'.completed := by
  induction called generalizing s with
  | nil => exact ⟨s, rfl, by simpa using h, rfl, rfl, List.prefix_rfl⟩
  | cons q called ih =>
    rw [← Multiset.cons_coe, Multiset.cons_add] at h
    obtain ⟨s₁, hstep, h₁, hwrapper₁, hreceived₁, hcompleted₁⟩ := h.callback
    obtain ⟨s₂, hrest, h₂, hwrapper₂, hreceived₂, hcompleted₂⟩ := ih h₁
    refine ⟨s₂, ?_, h₂, hwrapper₂.trans hwrapper₁, hreceived₂.trans hreceived₁,
      hcompleted₁.trans hcompleted₂⟩
    rw [DramRamulator.callbacks, hstep]
    exact hrest

/-! ## A cycle -/

/-- What `send` does: the responses leave from the front for as long as the network accepts. -/
structure SentAway (accepts : ℕ → Bool) (s s' : DramRamulator σ) : Prop where
  sent : s'.sent = s.sent ++ (s.ramuRespQueue.takeWhile accepts).map fun r =>
    DramSent.mk r .fill (s.reqs r).llcId s.cycle
  responses : s'.ramuRespQueue = s.ramuRespQueue.dropWhile accepts
  types : ∀ i, (s'.reqs i).type = (s.reqs i).type
  reads : s'.ramuReads = s.ramuReads
  writes : s'.ramuWrites = s.ramuWrites
  inFlight : s'.requestsInFlight = s.requestsInFlight
  received : s'.received = s.received
  completed : s'.completed = s.completed
  freed : s'.freed = s.freed
  incoming : s'.incoming = s.incoming
  arrived : s'.arrived = s.arrived
  wrapper : s'.wrapper = s.wrapper

/-- The scan sends what it is given, each request once. -/
theorem sentAway_scan {accepts : ℕ → Bool} {l : List ℕ} {s : DramRamulator σ}
    (hl : s.ramuRespQueue = l) : SentAway accepts s (DramRamulator.sendScan accepts l s) := by
  induction l generalizing s with
  | nil =>
    exact ⟨by simp [DramRamulator.sendScan, hl], by simp [DramRamulator.sendScan, hl],
      fun _ => rfl, rfl, rfl, rfl, rfl, rfl, rfl, rfl, rfl, rfl⟩
  | cons r rest ih =>
    have htypes : ∀ i, (Function.update s.reqs r { s.reqs r with msgType := .fill } i).type =
        (s.reqs i).type := by
      intro i
      by_cases hi : i = r
      · subst hi
        simp
      · simp [hi]
    have hslices : ∀ i,
        (Function.update s.reqs r { s.reqs r with msgType := .fill } i).llcId =
          (s.reqs i).llcId := by
      intro i
      by_cases hi : i = r
      · subst hi
        simp
      · simp [hi]
    rw [DramRamulator.sendScan]
    by_cases hok : accepts r
    · simp only [if_pos hok]
      have htail := @ih { s with
        reqs := Function.update s.reqs r { s.reqs r with msgType := .fill }
        sent := s.sent ++ [DramSent.mk r
          (Function.update s.reqs r { s.reqs r with msgType := .fill } r).msgType
          (Function.update s.reqs r { s.reqs r with msgType := .fill } r).llcId s.cycle]
        ramuRespQueue := s.ramuRespQueue.tail } (by rw [hl]; rfl)
      refine ⟨?_, ?_, fun i => (htail.types i).trans (htypes i), htail.reads, htail.writes,
        htail.inFlight, htail.received, htail.completed, htail.freed, htail.incoming,
        htail.arrived, htail.wrapper⟩
      · refine htail.sent.trans ?_
        simp only [hslices]
        simp [hl, hok]
      · refine htail.responses.trans ?_
        simp [hl, hok]
    · simp only [if_neg hok]
      exact ⟨by simp [hl, hok, DramRamulator.modifyReq], by simp [hl, hok, DramRamulator.modifyReq],
        htypes, rfl, rfl, rfl, rfl, rfl, rfl, rfl, rfl, rfl⟩

/-- Sending keeps the service. -/
theorem Service.send {owed : Multiset RamuRequest} {s : DramRamulator σ} (h : Service owed s)
    (accepts : ℕ → Bool) : Service owed (s.send accepts) := by
  have hsent : SentAway accepts s (s.send accepts) := sentAway_scan rfl
  have hqueue : ∀ k a, waitingFor (s.send accepts) k a = waitingFor s k a := by
    intro k a
    rw [waitingFor, waitingFor, hsent.reads, hsent.writes]
  refine ⟨?_, ?_, fun k a => ?_, ?_, fun r => ?_, ?_, ?_, ?_, ?_, ?_, ?_, ?_⟩
  · rw [hsent.reads]
    exact h.reads
  · rw [hsent.writes]
    exact h.writes
  · rw [hsent.received, hsent.completed, hqueue]
    exact h.fifo k a
  · rw [hsent.received, hsent.completed]
    exact h.called
  · rw [hsent.received, hsent.completed]
    simpa only [holds, hqueue] using h.conserved r
  · rw [hsent.inFlight]
    simpa only [entries, hqueue] using h.inFlight
  · have hids : (s.send accepts).sent.map DramSent.req =
        s.sent.map DramSent.req ++ s.ramuRespQueue.takeWhile accepts := by
      rw [hsent.sent, List.map_append, List.map_map]
      simp [Function.comp_def]
    rw [hids, hsent.responses, hsent.completed, ← h.responses, List.append_assoc,
      List.takeWhile_append_dropWhile]
  · rw [hsent.freed, hsent.completed]
    exact h.retired
  · rw [hsent.sent]
    intro m hm
    rcases List.mem_append.mp hm with hm | hm
    · exact h.fills m hm
    · obtain ⟨r, -, rfl⟩ := List.mem_map.mp hm
      rfl
  · rw [hsent.received]
    intro p hp
    rw [hsent.types]
    exact h.kinds p hp
  · rw [hsent.received, hsent.incoming, hsent.arrived]
    exact h.known
  · rw [hsent.received, hsent.incoming]
    exact h.nodup

/-- What `receive` does when Ramulator accepts. -/
structure TakenIn (s : DramRamulator σ) (r : ℕ) (rest : List ℕ) (q : RamuRequest)
    (s' : DramRamulator σ) : Prop where
  queue : ∀ k a, waitingFor s' k a =
    if k = q.isWrite ∧ a = q.addr then waitingFor s q.isWrite q.addr ++ [r]
    else waitingFor s k a
  reads : (∀ a, s.ramuReads a ≠ some []) → ∀ a, s'.ramuReads a ≠ some []
  writes : (∀ a, s.ramuWrites a ≠ some []) → ∀ a, s'.ramuWrites a ≠ some []
  inFlight : s'.requestsInFlight = s.requestsInFlight + 1
  received : s'.received = s.received ++ [(r, q)]
  incoming : s'.incoming = rest
  completed : s'.completed = s.completed
  freed : s'.freed = s.freed
  sent : s'.sent = s.sent
  responses : s'.ramuRespQueue = s.ramuRespQueue
  arrived : s'.arrived = s.arrived
  types : ∀ i, (s'.reqs i).type = (s.reqs i).type

/-- Adding a request leaves no empty list. -/
theorem pushBack_ne {m : Addr → Option (List ℕ)} {addr : Addr} {r : ℕ}
    (h : ∀ a, m a ≠ some []) (a : Addr) : DramRamulator.pushBack m addr r a ≠ some [] := by
  by_cases ha : a = addr
  · subst ha
    simp [DramRamulator.pushBack]
  · rw [DramRamulator.pushBack, Function.update_of_ne ha]
    exact h a

/-- Adding a request puts it at the end of its own address. -/
theorem getD_pushBack (map : Addr → Option (List ℕ)) (addr : Addr) (r : ℕ) (a : Addr) :
    (DramRamulator.pushBack map addr r a).getD [] =
      if a = addr then (map addr).getD [] ++ [r] else (map a).getD [] := by
  by_cases ha : a = addr
  · subst ha
    simp [DramRamulator.pushBack]
  · simp [DramRamulator.pushBack, ha]

/-- A request that is given to the wrapper is taken from the incoming ones. -/
theorem takenIn_enqueue (s : DramRamulator σ) (r : ℕ) (rest : List ℕ) (q : RamuRequest) :
    TakenIn s r rest q (s.enqueue r rest q) := by
  have htypes : ∀ i, (Function.update s.reqs r { s.reqs r with state := .dramStart } i).type =
      (s.reqs i).type := by
    intro i
    by_cases hi : i = r
    · subst hi
      simp
    · simp [hi]
  cases hq : q.isWrite with
  | true =>
    have heq : s.enqueue r rest q = { s with
        ramuWrites := DramRamulator.pushBack s.ramuWrites q.addr r
        requestsInFlight := s.requestsInFlight + 1
        reqs := Function.update s.reqs r { s.reqs r with state := .dramStart }
        incoming := rest
        received := s.received ++ [(r, q)] } := by
      simp [DramRamulator.enqueue, DramRamulator.modifyReq, hq]
    rw [heq]
    refine ⟨fun k a => ?_, fun h => h, fun h => pushBack_ne h, rfl, rfl, rfl, rfl, rfl, rfl, rfl,
      rfl, htypes⟩
    cases k with
    | false => simp [waitingFor, hq]
    | true => simp [waitingFor, hq, getD_pushBack]
  | false =>
    have heq : s.enqueue r rest q = { s with
        ramuReads := DramRamulator.pushBack s.ramuReads q.addr r
        requestsInFlight := s.requestsInFlight + 1
        reqs := Function.update s.reqs r { s.reqs r with state := .dramStart }
        incoming := rest
        received := s.received ++ [(r, q)] } := by
      simp [DramRamulator.enqueue, DramRamulator.modifyReq, hq]
    rw [heq]
    refine ⟨fun k a => ?_, fun h => pushBack_ne h, fun h => h, rfl, rfl, rfl, rfl, rfl, rfl, rfl,
      rfl, htypes⟩
    cases k with
    | true => simp [waitingFor, hq]
    | false => simp [waitingFor, hq, getD_pushBack]

/-- A sum over the queues of both kinds when a request is put at the end of one. -/
theorem sum_waitingFor_push {s s' : DramRamulator σ} {r : ℕ} {rest : List ℕ} {q : RamuRequest}
    (h : TakenIn s r rest q s') (g : List ℕ → ℕ) (z : ℕ) (hg : ∀ l, g (l ++ [r]) = g l + z) :
    ∑ a, g (waitingFor s' false a) + ∑ a, g (waitingFor s' true a) =
      ∑ a, g (waitingFor s false a) + ∑ a, g (waitingFor s true a) + z := by
  have hpush : ∑ a, g (Function.update (waitingFor s q.isWrite) q.addr
      (waitingFor s q.isWrite q.addr ++ [r]) a) = ∑ a, g (waitingFor s q.isWrite a) + z :=
    sum_update_add g (Finset.mem_univ _) (hg _)
  rw [waitingFor_eq_update h.queue false, waitingFor_eq_update h.queue true]
  cases hq : q.isWrite with
  | true =>
    rw [hq] at hpush
    simp only [Bool.false_eq_true, if_false, if_true]
    omega
  | false =>
    rw [hq] at hpush
    simp only [Bool.true_eq_false, if_false, if_true]
    omega

/-- A request that Ramulator accepts is in the books from then on. -/
theorem Service.enqueue {owed : Multiset RamuRequest} {s : DramRamulator σ} (h : Service owed s)
    {r : ℕ} {rest : List ℕ} (hin : s.incoming = r :: rest) :
    Service (DramRamulator.ramuRequest (s.reqs r) ::ₘ owed)
      (s.enqueue r rest (DramRamulator.ramuRequest (s.reqs r))) := by
  have ht := takenIn_enqueue s r rest (DramRamulator.ramuRequest (s.reqs r))
  have hkind : (DramRamulator.ramuRequest (s.reqs r)).isWrite = true ↔
      (s.reqs r).type = .wb := by
    simp [DramRamulator.ramuRequest]
  generalize DramRamulator.ramuRequest (s.reqs r) = q at *
  have hids : (s.enqueue r rest q).received.map Prod.fst ++ (s.enqueue r rest q).incoming =
      s.received.map Prod.fst ++ s.incoming := by
    rw [ht.received, ht.incoming, hin, List.map_append, List.append_assoc]
    rfl
  refine ⟨ht.reads h.reads, ht.writes h.writes, fun k a => ?_, ?_, fun i => ?_, ?_, ?_, ?_, ?_, ?_,
    ?_, ?_⟩
  · rw [ht.received, ht.completed, ht.queue, keyed_concat, h.fifo]
    by_cases hka : k = q.isWrite ∧ a = q.addr
    · obtain ⟨rfl, rfl⟩ := hka
      rw [if_pos ⟨rfl, rfl⟩, if_pos ⟨rfl, rfl⟩, List.append_assoc]
    · rw [if_neg hka, if_neg fun hqa => hka ⟨hqa.1.symm, hqa.2.symm⟩, List.append_nil]
  · rw [ht.received, ht.completed, List.map_append, ← Multiset.coe_add, h.called,
      Multiset.add_cons, ← Multiset.singleton_add, add_comm]
    rfl
  · have hsum := sum_waitingFor_push ht (List.count i) (if r = i then 1 else 0)
      (by intro l; rw [List.count_append]; simp [List.count_cons])
    have hcons := h.conserved i
    have hone : List.count i (List.map Prod.fst [(r, q)]) = if r = i then 1 else 0 := by
      simp [List.count_cons]
    rw [ht.received, ht.completed, List.map_append, List.count_append]
    simp only [holds] at hcons ⊢
    omega
  · have hsum := sum_waitingFor_push ht List.length 1 (by intro l; simp)
    have hflight := h.inFlight
    rw [ht.inFlight]
    simp only [entries] at hflight ⊢
    omega
  · rw [ht.sent, ht.responses, ht.completed]
    exact h.responses
  · rw [ht.freed, ht.completed]
    exact h.retired
  · rw [ht.sent]
    exact h.fills
  · rw [ht.received]
    intro p hp
    rw [ht.types]
    rcases List.mem_append.mp hp with hp | hp
    · exact h.kinds p hp
    · rw [List.mem_singleton.mp hp]
      exact hkind
  · rw [hids, ht.arrived]
    exact h.known
  · rw [hids]
    exact h.nodup

/-- The books do not mention the state of Ramulator or the cycle. -/
theorem Service.of_wrapper {owed : Multiset RamuRequest} {s : DramRamulator σ}
    (h : Service owed s) (wrapper : σ) : Service owed { s with wrapper := wrapper } :=
  ⟨h.reads, h.writes, h.fifo, h.called, h.conserved, h.inFlight, h.responses, h.retired, h.fills,
    h.kinds, h.known, h.nodup⟩

/-- Receiving keeps the service, when the wrapper keeps its promise. -/
theorem Service.receive {w : RamulatorWrapper σ} {owed : σ → Multiset RamuRequest}
    (hw : WrapperPromise w owed) {s : DramRamulator σ} (h : Service (owed s.wrapper) s) :
    Service (owed (s.receive w).wrapper) (s.receive w) := by
  cases hin : s.incoming with
  | nil =>
    have heq : s.receive w = s := by rw [DramRamulator.receive, hin]
    rwa [heq]
  | cons r rest =>
    cases hacc : (w.send s.wrapper (DramRamulator.ramuRequest (s.reqs r))).2 with
    | false =>
      have heq : s.receive w = { s with
          wrapper := (w.send s.wrapper (DramRamulator.ramuRequest (s.reqs r))).1 } := by
        rw [DramRamulator.receive, hin]
        simp [hacc]
      rw [heq]
      dsimp only
      rw [hw.refused _ _ hacc]
      exact h.of_wrapper _
    | true =>
      have heq : s.receive w = { s with
          wrapper := (w.send s.wrapper (DramRamulator.ramuRequest (s.reqs r))).1 }.enqueue r rest
            (DramRamulator.ramuRequest (s.reqs r)) := by
        rw [DramRamulator.receive, hin]
        simp [hacc]
      have hwrapper : (s.receive w).wrapper =
          (w.send s.wrapper (DramRamulator.ramuRequest (s.reqs r))).1 := by
        rw [heq, DramRamulator.enqueue]
        dsimp only [DramRamulator.modifyReq]
        split_ifs <;> rfl
      rw [hwrapper, hw.accepted _ _ hacc, heq]
      exact (h.of_wrapper
        (w.send s.wrapper (DramRamulator.ramuRequest (s.reqs r))).1).enqueue hin

/-! ## Runs -/

variable {w : RamulatorWrapper σ} {owed : σ → Multiset RamuRequest}

/-- Receiving adds to what was received and completes nothing. -/
theorem received_receive (w : RamulatorWrapper σ) (s : DramRamulator σ) :
    s.received <+: (s.receive w).received ∧ (s.receive w).completed = s.completed := by
  cases hin : s.incoming with
  | nil =>
    rw [DramRamulator.receive, hin]
    exact ⟨List.prefix_rfl, rfl⟩
  | cons r rest =>
    rw [DramRamulator.receive, hin]
    dsimp only
    split_ifs
    · rw [(takenIn_enqueue _ r rest _).received, (takenIn_enqueue _ r rest _).completed]
      exact ⟨List.prefix_append _ _, rfl⟩
    · exact ⟨List.prefix_rfl, rfl⟩

/-- An arrival keeps the service. -/
theorem Service.arrive {o : Multiset RamuRequest} {s : DramRamulator σ} (h : Service o s)
    (req : DramReq) : Service o (s.arrive req) := by
  have hids : (s.arrive req).received.map Prod.fst ++ (s.arrive req).incoming =
      (s.received.map Prod.fst ++ s.incoming) ++ [s.arrived] :=
    (List.append_assoc ..).symm
  refine ⟨h.reads, h.writes, h.fifo, h.called, h.conserved, h.inFlight, h.responses, h.retired,
    h.fills, fun p hp => ?_, ?_, ?_⟩
  · have hlt := h.known p.1 (List.mem_append_left _ (List.mem_map_of_mem hp))
    simpa [DramRamulator.arrive, hlt.ne] using h.kinds p hp
  · rw [hids]
    intro r hr
    rcases List.mem_append.mp hr with hr | hr
    · exact (h.known r hr).trans (Nat.lt_succ_self _)
    · rw [List.mem_singleton.mp hr]
      exact Nat.lt_succ_self _
  · rw [hids]
    refine List.Nodup.append h.nodup (List.nodup_singleton _) fun r hr hs => ?_
    exact (h.known r hr).ne (List.mem_singleton.mp hs)

/-- A promotion turns a prefetch into another request that is not a write-back. -/
theorem Service.adjustReq {o : Multiset RamuRequest} {s : DramRamulator σ} (h : Service o s)
    {r : ℕ} {req : DramReq} (hold : (s.reqs r).type = .dprf) (hnew : req.type ≠ .wb) :
    Service o (s.adjustReq r req) := by
  refine ⟨h.reads, h.writes, h.fifo, h.called, h.conserved, h.inFlight, h.responses, h.retired,
    h.fills, fun p hp => ?_, h.known, h.nodup⟩
  rw [h.kinds p hp]
  by_cases hr : p.1 = r
  · simp [DramRamulator.adjustReq, DramRamulator.modifyReq, hr, hold, hnew]
  · simp [DramRamulator.adjustReq, DramRamulator.modifyReq, hr]

/-- No action fails, and every action keeps the books. -/
theorem Service.step (hw : WrapperPromise w owed) {s : DramRamulator σ}
    (h : Service (owed s.wrapper) s) (a : RamulatorAction) :
    ∃ s', s.step w a = some s' ∧ Service (owed s'.wrapper) s' ∧
      s.received <+: s'.received ∧ s.completed <+: s'.completed := by
  cases a with
  | arrive req => exact ⟨_, rfl, h.arrive req, List.prefix_rfl, List.prefix_rfl⟩
  | adjustReq r req =>
    rw [DramRamulator.step]
    split_ifs with hprf
    · exact ⟨_, rfl, h.adjustReq hprf.1 hprf.2.2, List.prefix_rfl, List.prefix_rfl⟩
    · exact ⟨_, rfl, h, List.prefix_rfl, List.prefix_rfl⟩
  | runACycle accepts =>
    have hsent : SentAway accepts s (s.send accepts) := sentAway_scan rfl
    have h₁ := h.send accepts
    rw [← hsent.wrapper, hw.ticked (s.send accepts).wrapper] at h₁
    obtain ⟨s₂, hcalls, h₂, hwrapper₂, hreceived₂, hcompleted₂⟩ :=
      (h₁.of_wrapper (w.tick (s.send accepts).wrapper).1).callbacks
    replace h₂ : Service (owed s₂.wrapper) s₂ := by
      rw [hwrapper₂]
      exact h₂
    have h₃ := h₂.receive hw
    obtain ⟨hreceived₃, hcompleted₃⟩ := received_receive w s₂
    refine ⟨{ s₂.receive w with cycle := (s₂.receive w).cycle + 1 }, ?_,
      ⟨h₃.reads, h₃.writes, h₃.fifo, h₃.called, h₃.conserved, h₃.inFlight, h₃.responses,
        h₃.retired, h₃.fills, h₃.kinds, h₃.known, h₃.nodup⟩, ?_, ?_⟩
    · simp only [DramRamulator.step, DramRamulator.runACycle, hcalls, Option.map_some]
    · have hsame : s.received = s₂.received := by rw [hreceived₂, ← hsent.received]
      rw [hsame]
      exact hreceived₃
    · dsimp only
      rw [hcompleted₃, ← hsent.completed]
      exact hcompleted₂

/-- Every run succeeds and keeps the service, when the wrapper keeps its promise. -/
theorem Service.run (hw : WrapperPromise w owed) {s : DramRamulator σ}
    (h : Service (owed s.wrapper) s) (actions : List RamulatorAction) :
    ∃ s', s.run w actions = some s' ∧ Service (owed s'.wrapper) s' ∧
      s.received <+: s'.received ∧ s.completed <+: s'.completed := by
  induction actions generalizing s with
  | nil => exact ⟨s, rfl, h, List.prefix_rfl, List.prefix_rfl⟩
  | cons a actions ih =>
    obtain ⟨s₁, hstep, h₁, hreceived₁, hcompleted₁⟩ := h.step hw a
    obtain ⟨s₂, hrun, h₂, hreceived₂, hcompleted₂⟩ := ih h₁
    refine ⟨s₂, ?_, h₂, hreceived₁.trans hreceived₂, hcompleted₁.trans hcompleted₂⟩
    rw [DramRamulator.run, hstep]
    exact hrun

end MacSim.Analysis
