import Mathlib.Algebra.BigOperators.Fin
import Mathlib.Algebra.Order.BigOperators.Group.Finset
import MacSim.Computation.Ring
import MacSim.Model.SimpleNetwork

/-!
# Delivery by the simple network

Requests of one source to one destination never overtake each other, although requests to
different destinations do: once a destination has had its share the scan moves nothing to it any
more in this cycle, since its count only grows.  What is between a source and a destination is
therefore a queue, cut in two where the destination's buffer ends and the source's begins.
-/

set_option autoImplicit false

namespace MacSim.Analysis

open MacSim.Model
open MacSim.Model.SimpleNetwork
open MacSim.Computation

variable {n : ℕ}

/-- The requests of a list to one destination. -/
def toDst (l : List (SimpleReq n)) (dst : Fin n) : List (SimpleReq n) :=
  l.filter fun req => req.msgDst = dst

/-- The requests of a list from one source. -/
def fromSrc (l : List (SimpleReq n)) (src : Fin n) : List (SimpleReq n) :=
  l.filter fun req => req.msgSrc = src

/-- The empty list has no request for a destination. -/
@[simp] theorem toDst_nil (dst : Fin n) : toDst [] dst = [] := rfl
/-- The empty list has no request from a source. -/
@[simp] theorem fromSrc_nil (src : Fin n) : fromSrc [] src = [] := rfl

/-- The requests for a destination in two lists are those of the first and those of the second. -/
theorem toDst_append (l l' : List (SimpleReq n)) (dst : Fin n) :
    toDst (l ++ l') dst = toDst l dst ++ toDst l' dst := List.filter_append ..

/-- The requests from a source in two lists are those of the first and those of the second. -/
theorem fromSrc_append (l l' : List (SimpleReq n)) (src : Fin n) :
    fromSrc (l ++ l') src = fromSrc l src ++ fromSrc l' src := List.filter_append ..

/-- A request for the destination is the first of those for it. -/
theorem toDst_cons_self {req : SimpleReq n} {l : List (SimpleReq n)} {dst : Fin n}
    (h : req.msgDst = dst) : toDst (req :: l) dst = req :: toDst l dst :=
  List.filter_cons_of_pos (decide_eq_true h)

/-- A request for another destination is not counted. -/
theorem toDst_cons_ne {req : SimpleReq n} {l : List (SimpleReq n)} {dst : Fin n}
    (h : req.msgDst ≠ dst) : toDst (req :: l) dst = toDst l dst :=
  List.filter_cons_of_neg (by simpa using h)

/-- A list of one source is its own part from that source. -/
theorem fromSrc_of_forall {l : List (SimpleReq n)} {src : Fin n}
    (h : ∀ req ∈ l, req.msgSrc = src) : fromSrc l src = l :=
  List.filter_eq_self.mpr fun req hreq => decide_eq_true (h req hreq)

/-- A list of another source has no part from that source. -/
theorem fromSrc_of_ne {l : List (SimpleReq n)} {s src : Fin n} (hne : s ≠ src)
    (h : ∀ req ∈ l, req.msgSrc = s) : fromSrc l src = [] := by
  refine List.filter_eq_nil_iff.mpr fun req hreq => ?_
  rw [decide_eq_true_eq, h req hreq]
  exact hne

/-! ## The scan of a buffer -/

/-- A destination that has had its share gets nothing. -/
theorem scan_full {net : SimpleNetwork n} {k : ℕ} {l : List (SimpleReq n)} {dst : Fin n}
    (h : maxNumAcceptInDst ≤ net.packetInserted dst) : toDst (scan net k l).moved dst = [] := by
  induction l generalizing net k with
  | nil => rfl
  | cons req rest ih =>
    rw [scan]
    split_ifs with hcount hroom
    · rfl
    · have hne : req.msgDst ≠ dst := by
        rintro rfl
        omega
      rw [toDst_cons_ne hne]
      refine ih ?_
      simpa only [insertPacket, Function.update_of_ne hne.symm] using h
    · exact ih h

/-- What a scan does. -/
structure Scanned (net : SimpleNetwork n) (k : ℕ) (l : List (SimpleReq n)) (s : Scan n) :
    Prop where
  injection : s.net.injectionBuffer = net.injectionBuffer
  arrived : ∀ d, s.net.reqBuffer d = net.reqBuffer d ++ toDst s.moved d
  inserted : ∀ d, s.net.packetInserted d = net.packetInserted d + (toDst s.moved d).length
  accept : (∀ d, net.packetInserted d ≤ maxNumAcceptInDst) →
    ∀ d, s.net.packetInserted d ≤ maxNumAcceptInDst
  inject : k ≤ maxNumInjectionFromSrc → k + s.moved.length ≤ maxNumInjectionFromSrc
  kept : s.kept.Sublist l
  moved : s.moved.Sublist l
  order : ∀ d, toDst s.moved d ++ toDst s.kept d = toDst l d

/-- The scan sends each request of the list or keeps it in order. -/
theorem scanned (net : SimpleNetwork n) (k : ℕ) (l : List (SimpleReq n)) :
    Scanned net k l (scan net k l) := by
  induction l generalizing net k with
  | nil => exact ⟨rfl, by simp [scan], by simp [scan], id, id, .slnil, .slnil, by simp [scan]⟩
  | cons req rest ih =>
    rw [scan]
    split_ifs with hcount hroom
    · exact ⟨rfl, by simp, by simp, id, id, .refl _, List.nil_sublist _, by simp⟩
    · have hs := ih (net.insertPacket req) (k + 1)
      refine ⟨hs.injection, fun d => ?_, fun d => ?_, fun hle => hs.accept fun d => ?_,
        fun _ => ?_, hs.kept.cons req, hs.moved.cons_cons req, fun d => ?_⟩
      · rw [hs.arrived d]
        by_cases hd : req.msgDst = d
        · subst hd
          rw [toDst_cons_self rfl]
          simp [insertPacket]
        · rw [toDst_cons_ne hd]
          simp [insertPacket, Function.update_of_ne (Ne.symm hd)]
      · rw [hs.inserted d]
        by_cases hd : req.msgDst = d
        · subst hd
          rw [toDst_cons_self rfl, List.length_cons]
          simp only [insertPacket, Function.update_self]
          omega
        · rw [toDst_cons_ne hd]
          simp [insertPacket, Function.update_of_ne (Ne.symm hd)]
      · by_cases hd : req.msgDst = d
        · subst hd
          simp only [insertPacket, Function.update_self]
          omega
        · simpa [insertPacket, Function.update_of_ne (Ne.symm hd)] using hle d
      · have := hs.inject (by omega)
        rw [List.length_cons]
        omega
      · by_cases hd : req.msgDst = d
        · rw [toDst_cons_self hd, toDst_cons_self hd, List.cons_append, hs.order d]
        · rw [toDst_cons_ne hd, toDst_cons_ne hd, hs.order d]
    · have hs := ih net k
      refine ⟨hs.injection, hs.arrived, hs.inserted, hs.accept, hs.inject, hs.kept.cons_cons req,
        hs.moved.cons req, fun d => ?_⟩
      by_cases hd : req.msgDst = d
      · -- its destination is full, so nothing behind it goes there either
        have hfull : toDst (scan net k rest).moved d = [] := scan_full (by rw [← hd]; omega)
        have horder := hs.order d
        rw [hfull, List.nil_append] at horder
        rw [toDst_cons_self hd, toDst_cons_self hd, hfull, List.nil_append, horder]
      · rw [toDst_cons_ne hd, toDst_cons_ne hd, hs.order d]

/-- The front of a buffer is moved when its destination has room. -/
theorem scan_front {net : SimpleNetwork n} {l : List (SimpleReq n)}
    (h : ∀ d, net.packetInserted d = 0) : (scan net 0 l).kept.Sublist l.tail := by
  cases l with
  | nil => exact .slnil
  | cons req rest =>
    rw [scan, if_neg (by decide), if_pos (by rw [h]; decide)]
    exact (scanned _ _ rest).kept

/-! ## A network cycle -/

/-- What the routers of `srcs` do in a cycle. -/
structure Processed (net : SimpleNetwork n) (srcs : List (Fin n))
    (r : SimpleNetwork n × List (SimpleReq n)) : Prop where
  arrived : ∀ d, r.1.reqBuffer d = net.reqBuffer d ++ toDst r.2 d
  inserted : ∀ d, r.1.packetInserted d = net.packetInserted d + (toDst r.2 d).length
  accept : (∀ d, net.packetInserted d ≤ maxNumAcceptInDst) →
    ∀ d, r.1.packetInserted d ≤ maxNumAcceptInDst
  source : ∀ req ∈ r.2, req.msgSrc ∈ srcs
  inject : ∀ s, (fromSrc r.2 s).length ≤ maxNumInjectionFromSrc
  kept : ∀ s, (r.1.injectionBuffer s).Sublist (net.injectionBuffer s)
  order : ∀ s d, fromSrc (toDst r.2 d) s ++ toDst (r.1.injectionBuffer s) d =
    toDst (net.injectionBuffer s) d

/-- Every request waits at its own source. -/
def AtHome (net : SimpleNetwork n) : Prop := ∀ s, ∀ req ∈ net.injectionBuffer s, req.msgSrc = s

/-- A cycle keeps every request at its source. -/
theorem Processed.atHome {net : SimpleNetwork n} {srcs : List (Fin n)}
    {r : SimpleNetwork n × List (SimpleReq n)} (h : Processed net srcs r) (hhome : AtHome net) :
    AtHome r.1 := fun s req hreq => hhome s req ((h.kept s).mem hreq)

/-- A turn changes the injection buffer of its own router only. -/
theorem process_injection (net : SimpleNetwork n) (src s : Fin n) :
    (net.process src).1.injectionBuffer s =
      if s = src then (scan net 0 (net.injectionBuffer src)).kept else net.injectionBuffer s := by
  have hscan := scanned net 0 (net.injectionBuffer src)
  by_cases hs : s = src
  · subst hs
    simp [process]
  · simp [process, hs, hscan.injection]

/-- A turn processes one router. -/
theorem processed_process {net : SimpleNetwork n} (hhome : AtHome net) (src : Fin n) :
    Processed net [src] (net.process src) := by
  have hscan := scanned net 0 (net.injectionBuffer src)
  have hsrc : ∀ req ∈ (net.process src).2, req.msgSrc = src :=
    fun req hreq => hhome src req (hscan.moved.mem hreq)
  refine ⟨hscan.arrived, hscan.inserted, hscan.accept, fun req hreq => ?_, fun s => ?_,
    fun s => ?_, fun s d => ?_⟩
  · rw [hsrc req hreq]
    exact List.mem_singleton_self src
  · have hlen := hscan.inject (Nat.zero_le _)
    rw [Nat.zero_add] at hlen
    exact (List.length_filter_le _ _).trans hlen
  · rw [process_injection]
    split_ifs with hs
    · rw [hs]
      exact hscan.kept
    · exact .refl _
  · rw [process_injection]
    have hdst : ∀ req ∈ toDst (net.process src).2 d, req.msgSrc = src :=
      fun req hreq => hsrc req (List.mem_of_mem_filter hreq)
    split_ifs with hs
    · subst hs
      rw [fromSrc_of_forall hdst]
      exact hscan.order d
    · rw [fromSrc_of_ne (Ne.symm hs) hdst, List.nil_append]

/-- The turns of different routers process them all. -/
theorem processed_processAll {net : SimpleNetwork n} {srcs : List (Fin n)} (hhome : AtHome net)
    (hnodup : srcs.Nodup) : Processed net srcs (net.processAll srcs) := by
  induction srcs generalizing net with
  | nil =>
    exact ⟨by simp [processAll], by simp [processAll], id, by simp [processAll],
      by simp [processAll], fun s => .refl _, by simp [processAll]⟩
  | cons src rest ih =>
    obtain ⟨hnot, hnodup⟩ := List.nodup_cons.mp hnodup
    have hp := processed_process hhome src
    have hr := ih (hp.atHome hhome) hnodup
    rw [processAll]
    refine ⟨fun d => ?_, fun d => ?_, fun hle => hr.accept (hp.accept hle), fun req hreq => ?_,
      fun s => ?_, fun s => (hr.kept s).trans (hp.kept s), fun s d => ?_⟩
    · rw [hr.arrived d, hp.arrived d, toDst_append, List.append_assoc]
    · rw [hr.inserted d, hp.inserted d, toDst_append, List.length_append, Nat.add_assoc]
    · rcases List.mem_append.mp hreq with hreq | hreq
      · exact List.mem_cons.mpr (Or.inl (List.mem_singleton.mp (hp.source req hreq)))
      · exact List.mem_cons_of_mem _ (hr.source req hreq)
    · rw [fromSrc_append, List.length_append]
      by_cases hs : s = src
      · have hrest : fromSrc ((net.process src).1.processAll rest).2 s = [] := by
          refine List.filter_eq_nil_iff.mpr fun req hreq => ?_
          rw [decide_eq_true_eq]
          rintro rfl
          exact hnot (hs ▸ hr.source req hreq)
        rw [hrest, List.length_nil, Nat.add_zero]
        exact hp.inject s
      · have hfirst : fromSrc (net.process src).2 s = [] :=
          fromSrc_of_ne (Ne.symm hs) fun req hreq => List.mem_singleton.mp (hp.source req hreq)
        rw [hfirst, List.length_nil, Nat.zero_add]
        exact hr.inject s
    · rw [toDst_append, fromSrc_append, List.append_assoc, hr.order s d, hp.order s d]

/-- The tick order has every router once. -/
theorem nodup_tickOrder (n cycle : ℕ) : (tickOrder n cycle).Nodup := by
  refine List.Nodup.map (fun j k hjk => ?_) (List.nodup_finRange n)
  exact Fin.ext (add_mod_inj j.isLt k.isLt (Fin.mk.inj hjk))

/-- Every router has a turn in a cycle. -/
theorem mem_tickOrder {n : ℕ} (cycle : ℕ) (s : Fin n) : s ∈ tickOrder n cycle := by
  obtain ⟨k, hk, hks⟩ := mem_window.mp
    (mem_window_full.mpr s.isLt : s.val ∈ window n (cycle % n) n)
  exact List.mem_map.mpr ⟨⟨k, hk⟩, List.mem_finRange _, Fin.ext hks⟩

/-- The network with the counters of a new cycle. -/
abbrev fresh (net : SimpleNetwork n) : SimpleNetwork n := { net with packetInserted := fun _ => 0 }

/-- A cycle processes every router, with fresh ports. -/
theorem processed_runACycle {net : SimpleNetwork n} (hhome : AtHome net) (cycle : ℕ) :
    Processed (fresh net) (tickOrder n cycle) (net.runACycle cycle) :=
  processed_processAll hhome (nodup_tickOrder n cycle)

/-- In a cycle no router sends or accepts more than its share. -/
theorem runACycle_rates {net : SimpleNetwork n} (hhome : AtHome net) (cycle : ℕ) (i : Fin n) :
    (fromSrc (net.runACycle cycle).2 i).length ≤ maxNumInjectionFromSrc ∧
      (toDst (net.runACycle cycle).2 i).length ≤ maxNumAcceptInDst := by
  have h := processed_runACycle hhome cycle
  refine ⟨h.inject i, ?_⟩
  have haccept := h.accept (fun _ => Nat.zero_le _) i
  rwa [h.inserted i, Nat.zero_add] at haccept

/-! ## Progress -/

/-- The first router of a cycle moves the front of its buffer. -/
theorem processAll_front {net : SimpleNetwork n} {s : Fin n} {rest : List (Fin n)}
    (hhome : AtHome net) (hnodup : rest.Nodup) (hzero : ∀ d, net.packetInserted d = 0) :
    ((net.processAll (s :: rest)).1.injectionBuffer s).Sublist (net.injectionBuffer s).tail := by
  have hp := processed_process hhome s
  have hr := processed_processAll (hp.atHome hhome) hnodup
  refine (hr.kept s).trans ?_
  rw [process_injection, if_pos rfl]
  exact scan_front hzero

/-- In a cycle with a request waiting, some buffer gets shorter: routers in front of the first
one that has a request move nothing. -/
theorem processAll_shorter {net : SimpleNetwork n} {srcs : List (Fin n)} (hhome : AtHome net)
    (hnodup : srcs.Nodup) (hzero : ∀ d, net.packetInserted d = 0)
    (hwait : ∃ s ∈ srcs, net.injectionBuffer s ≠ []) :
    ∃ s, ((net.processAll srcs).1.injectionBuffer s).length <
      (net.injectionBuffer s).length := by
  induction srcs generalizing net with
  | nil =>
    obtain ⟨s, hs, -⟩ := hwait
    cases hs
  | cons src rest ih =>
    have hnodup' := (List.nodup_cons.mp hnodup).2
    by_cases hempty : net.injectionBuffer src = []
    · have hsame : (net.process src).1 = net := by
        have hupdate : Function.update net.injectionBuffer src [] = net.injectionBuffer := by
          rw [← hempty, Function.update_eq_self]
        simp only [process, hempty, scan, hupdate]
      rw [processAll, hsame]
      obtain ⟨s, hs, hne⟩ := hwait
      rcases List.mem_cons.mp hs with rfl | hs
      · exact absurd hempty hne
      · exact ih hhome hnodup' hzero ⟨s, hs, hne⟩
    · refine ⟨src, ?_⟩
      have hle := (processAll_front hhome hnodup' hzero (s := src)).length_le
      have hpos := List.length_pos_iff.mpr hempty
      rw [List.length_tail] at hle
      omega

/-- The simulation cycle selects the first router of a network cycle. -/
theorem tickOrder_first {cycle : ℕ} {s : Fin n} (h : cycle % n = s.val) :
    ∃ rest, tickOrder n cycle = s :: rest := by
  cases n with
  | zero => exact s.elim0
  | succ m =>
    rw [tickOrder, List.finRange_succ, List.map_cons]
    refine ⟨_, congrArg (List.cons · _) (Fin.ext ?_)⟩
    simp [h, Nat.mod_eq_of_lt s.isLt]

/-- The requests that wait in all buffers. -/
def waiting (net : SimpleNetwork n) : ℕ := ∑ s, (net.injectionBuffer s).length

/-- In a cycle at least one waiting request leaves, if there is one. -/
theorem waiting_runACycle {net : SimpleNetwork n} (hhome : AtHome net) (cycle : ℕ) :
    waiting (net.runACycle cycle).1 ≤ waiting net - 1 := by
  have h := processed_runACycle hhome cycle
  have hle : ∀ s, ((net.runACycle cycle).1.injectionBuffer s).length ≤
      (net.injectionBuffer s).length := fun s => (h.kept s).length_le
  by_cases hwait : ∃ s, net.injectionBuffer s ≠ []
  · obtain ⟨s, hs⟩ := hwait
    obtain ⟨s', hs'⟩ := processAll_shorter (show AtHome (fresh net) from hhome) (nodup_tickOrder n cycle)
      (fun _ => rfl) ⟨s, mem_tickOrder cycle s, hs⟩
    exact Nat.le_pred_of_lt (Finset.sum_lt_sum (fun i _ => hle i) ⟨s', Finset.mem_univ _, hs'⟩)
  · have hzero : waiting net = 0 := by
      refine Finset.sum_eq_zero fun s _ => ?_
      by_contra hne
      exact hwait ⟨s, fun hnil => hne (by rw [hnil, List.length_nil])⟩
    have hsum : waiting (net.runACycle cycle).1 ≤ waiting net :=
      Finset.sum_le_sum fun i _ => hle i
    omega

/-! ## Runs -/

/-- Between a source and a destination is a queue of the requests accepted and not yet arrived. -/
structure Reliable (t : Traffic n) : Prop where
  home : AtHome t.net
  size : ∀ s, (t.net.injectionBuffer s).length ≤ injectionBufferMaxSize
  dest : ∀ d, ∀ req ∈ t.arrived d, req.msgDst = d
  flow : ∀ s d, fromSrc (t.arrived d) s ++ toDst (t.net.injectionBuffer s) d =
    toDst (fromSrc t.accepted s) d

/-- At first nothing has been accepted. -/
theorem reliable_init (n : ℕ) : Reliable (Traffic.init n) :=
  ⟨fun _ _ h => absurd h List.not_mem_nil, fun _ => Nat.zero_le _,
    fun _ _ h => absurd h List.not_mem_nil, fun _ _ => rfl⟩

/-- An accepted request keeps the network reliable. -/
theorem Reliable.send {t : Traffic n} (h : Reliable t) (req : SimpleReq n) :
    Reliable (t.step (.send req)) := by
  by_cases hroom : (t.net.injectionBuffer req.msgSrc).length < injectionBufferMaxSize
  · have hstep : t.step (.send req) =
        { t with
          net := { t.net with
            injectionBuffer := Function.update t.net.injectionBuffer req.msgSrc
              (t.net.injectionBuffer req.msgSrc ++ [req]) }
          accepted := t.accepted ++ [req] } := by
      simp [Traffic.step, injectPacket, hroom]
    rw [hstep]
    refine ⟨fun s r hr => ?_, fun s => ?_, h.dest, fun s d => ?_⟩
    · by_cases hs : s = req.msgSrc
      · subst hs
        simp only [Function.update_self, List.mem_append, List.mem_singleton] at hr
        rcases hr with hr | rfl
        · exact h.home _ r hr
        · rfl
      · simp only [Function.update_of_ne hs] at hr
        exact h.home s r hr
    · by_cases hs : s = req.msgSrc
      · subst hs
        simpa using hroom
      · simpa only [Function.update_of_ne hs] using h.size s
    · have hflow := h.flow s d
      simp only [Traffic.arrived] at hflow ⊢
      by_cases hs : s = req.msgSrc
      · subst hs
        rw [Function.update_self, toDst_append, ← List.append_assoc, hflow, fromSrc_append,
          fromSrc_of_forall (l := [req]) (by simp), toDst_append]
      · have hnone : fromSrc [req] s = [] := fromSrc_of_ne (Ne.symm hs) (by simp)
        rw [Function.update_of_ne hs, hflow, fromSrc_append, hnone, List.append_nil]
  · have hstep : t.step (.send req) = t := by simp [Traffic.step, injectPacket, hroom]
    rwa [hstep]

/-- A request that is taken away has arrived before. -/
theorem arrived_receive (t : Traffic n) (dst d : Fin n) :
    (t.step (.receive dst)).arrived d = t.arrived d := by
  by_cases hd : d = dst
  · subst hd
    simp only [Traffic.arrived, Traffic.step, popReq, Function.update_self, List.append_assoc]
    congr 1
    cases t.net.reqBuffer d <;> rfl
  · simp [Traffic.arrived, Traffic.step, popReq, hd]

/-- What arrives in a cycle is what the network sends to the destination. -/
theorem arrived_cycle {t : Traffic n} (hhome : AtHome t.net) (cycle : ℕ) (d : Fin n) :
    (t.step (.cycle cycle)).arrived d = t.arrived d ++ toDst (t.net.runACycle cycle).2 d := by
  have h := (processed_runACycle hhome cycle).arrived d
  simp only [Traffic.arrived, Traffic.step, h, List.append_assoc]

/-- Each event keeps the network reliable. -/
theorem Reliable.step {t : Traffic n} (h : Reliable t) (event : Event n) :
    Reliable (t.step event) := by
  cases event with
  | send req => exact h.send req
  | receive dst =>
    refine ⟨h.home, h.size, fun d => ?_, fun s d => ?_⟩
    · rw [arrived_receive]
      exact h.dest d
    · rw [arrived_receive]
      exact h.flow s d
  | cycle simulationCycle =>
    have hp := processed_runACycle h.home simulationCycle
    refine ⟨hp.atHome h.home, fun s => (hp.kept s).length_le.trans (h.size s), fun d req hreq => ?_,
      fun s d => ?_⟩
    · rw [arrived_cycle h.home] at hreq
      rcases List.mem_append.mp hreq with hreq | hreq
      · exact h.dest d req hreq
      · exact of_decide_eq_true (List.mem_filter.mp hreq).2
    · rw [arrived_cycle h.home, fromSrc_append, List.append_assoc]
      exact (congrArg _ (hp.order s d)).trans (h.flow s d)

/-- Any events keep the network reliable. -/
theorem Reliable.run {t : Traffic n} (h : Reliable t) (events : List (Event n)) :
    Reliable (t.run events) := by
  induction events generalizing t with
  | nil => exact h
  | cons event events ih => exact ih (h.step event)

/-- The cycles of a run in which a source is the first router. -/
def firstTurns (s : Fin n) : List (Event n) → ℕ
  | [] => 0
  | .cycle c :: events => (if c % n = s.val then 1 else 0) + firstTurns s events
  | _ :: events => firstTurns s events

/-- The first turns in two lists add up. -/
theorem firstTurns_append (s : Fin n) (l l' : List (Event n)) :
    firstTurns s (l ++ l') = firstTurns s l + firstTurns s l' := by
  induction l with
  | nil => simp [firstTurns]
  | cons event l ih => cases event <;> simp [firstTurns, ih, Nat.add_assoc]

/-- An event takes as many requests from the front of a buffer as it is a first turn, and adds
what is accepted at the end. -/
theorem injection_step {t : Traffic n} (h : Reliable t) (event : Event n) (s : Fin n) :
    ∃ kept extra, (t.step event).net.injectionBuffer s = kept ++ fromSrc extra s ∧
      kept.Sublist ((t.net.injectionBuffer s).drop (firstTurns s [event])) ∧
      (t.step event).accepted = t.accepted ++ extra := by
  cases event with
  | send req =>
    by_cases hroom : (t.net.injectionBuffer req.msgSrc).length < injectionBufferMaxSize
    · refine ⟨t.net.injectionBuffer s, [req], ?_, .refl _, ?_⟩
      · by_cases hs : s = req.msgSrc
        · subst hs
          rw [fromSrc_of_forall (by simp)]
          simp [Traffic.step, injectPacket, hroom]
        · rw [fromSrc_of_ne (Ne.symm hs) (by simp)]
          simp [Traffic.step, injectPacket, hroom, hs]
      · simp [Traffic.step, injectPacket, hroom]
    · refine ⟨t.net.injectionBuffer s, [], ?_, .refl _, ?_⟩
      · simp [Traffic.step, injectPacket, hroom]
      · simp [Traffic.step, injectPacket, hroom]
  | receive dst =>
    exact ⟨_, [], (List.append_nil _).symm, .refl _, (List.append_nil _).symm⟩
  | cycle simulationCycle =>
    have hp := processed_runACycle h.home simulationCycle
    refine ⟨_, [], (List.append_nil _).symm, ?_, (List.append_nil _).symm⟩
    by_cases hfirst : simulationCycle % n = s.val
    · obtain ⟨rest, horder⟩ := tickOrder_first hfirst
      have hnodup := nodup_tickOrder n simulationCycle
      rw [horder] at hnodup
      have hfront : ((t.net.runACycle simulationCycle).1.injectionBuffer s).Sublist
          (t.net.injectionBuffer s).tail := by
        rw [runACycle, horder]
        exact processAll_front (show AtHome (fresh t.net) from h.home) (List.nodup_cons.mp hnodup).2
          fun _ => rfl
      simpa [Traffic.step, firstTurns, hfirst] using hfront
    · simpa [Traffic.step, firstTurns, hfirst] using hp.kept s

/-- After a run, what a buffer still holds of its contents is behind as many requests as the
source had first turns. -/
theorem injection_run {t : Traffic n} (h : Reliable t) (later : List (Event n)) (s : Fin n) :
    ∃ kept new extra, (t.run later).net.injectionBuffer s = kept ++ new ∧
      kept.Sublist ((t.net.injectionBuffer s).drop (firstTurns s later)) ∧
      new.Sublist (fromSrc extra s) ∧ (t.run later).accepted = t.accepted ++ extra := by
  induction later using List.reverseRecOn with
  | nil => exact ⟨_, [], [], (List.append_nil _).symm, .refl _, .slnil, (List.append_nil _).symm⟩
  | append_singleton later event ih =>
    obtain ⟨kept, new, extra, hbuffer, hkept, hnew, haccepted⟩ := ih
    obtain ⟨kept', extra', hbuffer', hkept', haccepted'⟩ :=
      injection_step (h.run later) event s
    have hrun : t.run (later ++ [event]) = (t.run later).step event := by
      simp [Traffic.run]
    rw [hbuffer, List.drop_append] at hkept'
    obtain ⟨left, right, rfl, hleft, hright⟩ := List.sublist_append_iff.mp hkept'
    refine ⟨left, right ++ fromSrc extra' s, extra ++ extra', ?_, ?_, ?_, ?_⟩
    · rw [hrun, hbuffer', List.append_assoc]
    · rw [firstTurns_append, ← List.drop_drop]
      exact hleft.trans (hkept.drop _)
    · rw [fromSrc_append]
      exact ((hright.trans (List.drop_sublist _ _)).trans hnew).append (.refl _)
    · rw [hrun, haccepted', haccepted, List.append_assoc]

/-- After as many first turns as the buffer has places, everything accepted before has arrived. -/
theorem arrived_of_firstTurns {t : Traffic n} (h : Reliable t) {later : List (Event n)} {s : Fin n}
    (hturns : injectionBufferMaxSize ≤ firstTurns s later) (d : Fin n) :
    toDst (fromSrc t.accepted s) d <+: fromSrc ((t.run later).arrived d) s := by
  obtain ⟨kept, new, extra, hbuffer, hkept, hnew, haccepted⟩ := injection_run h later s
  rw [List.drop_eq_nil_of_le ((h.size s).trans hturns)] at hkept
  obtain rfl := List.sublist_nil.mp hkept
  have hflow := (h.run later).flow s d
  rw [hbuffer, List.nil_append, haccepted, fromSrc_append, toDst_append] at hflow
  refine List.prefix_of_prefix_length_le ⟨_, rfl⟩ ⟨_, hflow⟩ ?_
  have hlen := congrArg List.length hflow
  have hle := (hnew.filter fun req => req.msgDst = d).length_le
  simp only [List.length_append] at hlen
  simp only [toDst] at hlen ⊢
  omega

/-- Once nothing more is sent, every cycle moves a request until all have arrived. -/
theorem waiting_run {t : Traffic n} (h : Reliable t) (cycles : List ℕ) :
    waiting (t.run (cycles.map .cycle)).net ≤ waiting t.net - cycles.length := by
  induction cycles generalizing t with
  | nil => exact le_rfl
  | cons c cycles ih =>
    have hstep : waiting (t.step (.cycle c)).net ≤ waiting t.net - 1 := waiting_runACycle h.home c
    have hrest := ih (h.step (.cycle c))
    have hcons : t.run ((c :: cycles).map .cycle) = (t.step (.cycle c)).run (cycles.map .cycle) :=
      rfl
    rw [hcons, List.length_cons]
    omega

/-- The simple network is reliable: over any run, what has arrived at a destination from a
source, followed by what waits for the destination at the source, is what the source was
accepted to send there, in the same order and at no other router; a cycle moves at most two
requests of a source and at most two into a destination; and whatever was accepted arrives, at
the latest when the source has gone first as often as its buffer has places, or when as many
cycles have passed without new requests as requests were waiting. -/
theorem simple_network_reliable (n : ℕ) (events : List (Event n)) :
    let t := (Traffic.init n).run events
    (∀ d, ∀ req ∈ t.arrived d, req.msgDst = d) ∧
    (∀ s, ∀ req ∈ t.net.injectionBuffer s, req.msgSrc = s) ∧
    (∀ s d, fromSrc (t.arrived d) s ++ toDst (t.net.injectionBuffer s) d =
      toDst (fromSrc t.accepted s) d) ∧
    (∀ cycle i,
      (t.net.runACycle cycle).1.reqBuffer i =
        t.net.reqBuffer i ++ toDst (t.net.runACycle cycle).2 i ∧
      (fromSrc (t.net.runACycle cycle).2 i).length ≤ maxNumInjectionFromSrc ∧
      (toDst (t.net.runACycle cycle).2 i).length ≤ maxNumAcceptInDst) ∧
    (∀ s later, injectionBufferMaxSize ≤ firstTurns s later →
      ∀ d, toDst (fromSrc t.accepted s) d <+: fromSrc ((t.run later).arrived d) s) ∧
    (∀ cycles : List ℕ, waiting t.net ≤ cycles.length →
      ∀ s d, fromSrc ((t.run (cycles.map .cycle)).arrived d) s =
        toDst (fromSrc t.accepted s) d) := by
  have h := (reliable_init n).run events
  refine ⟨h.dest, h.home, h.flow, fun cycle i => ?_, fun s later hturns => ?_,
    fun cycles hlen s d => ?_⟩
  · exact ⟨(processed_runACycle h.home cycle).arrived i, runACycle_rates h.home cycle i⟩
  · exact arrived_of_firstTurns h hturns
  · have hrun := h.run (cycles.map .cycle)
    generalize (Traffic.init n).run events = t at *
    have hzero : waiting (t.run (cycles.map .cycle)).net = 0 := by
      have := waiting_run h cycles
      omega
    have hempty : (t.run (cycles.map .cycle)).net.injectionBuffer s = [] :=
      List.length_eq_zero_iff.mp (Finset.sum_eq_zero_iff.mp hzero s (Finset.mem_univ s))
    have haccepted : (t.run (cycles.map .cycle)).accepted = t.accepted := by
      clear hlen hrun hzero hempty h
      induction cycles generalizing t with
      | nil => rfl
      | cons c cycles ih => exact ih (t.step (.cycle c))
    have hflow := hrun.flow s d
    rwa [hempty, toDst_nil, List.append_nil, haccepted] at hflow

end MacSim.Analysis
