import MacSim.Analysis.DramMoves

/-!
# The send loop of the DRAM controller

`send` goes over the output buffer once, or twice when the virtual channels are partitioned,
and stops a pass at the first request that the network refuses.  A kind of request that the
first pass has tried is not tried again, so of every kind a front part of the waiting requests
goes out, each request once.  `Outgoing` collects what one call does.
-/

set_option autoImplicit false

namespace MacSim.Analysis.Dram

open MacSim.Model MacSim.Computation

variable {k : DramKnobs} {s s' : DramCtrl}

/-! ## Lists -/

/-- Filtering away a front part leaves the rest. -/
theorem filter_notMem_append {l l' : List ℕ} (h : (l ++ l').Nodup) :
    (l ++ l').filter (· ∉ l) = l' := by
  obtain ⟨-, -, hdis⟩ := List.nodup_append.mp h
  rw [List.filter_append, List.filter_eq_nil_iff.mpr (by simp), List.nil_append]
  rw [List.filter_eq_self]
  intro r hr
  have hne : r ∉ l := fun hl => hdis r hl r hr rfl
  simpa using hne

/-- Taking the leading part out of a list without repetition leaves the rest. -/
theorem filter_notMem_takeWhile {l : List ℕ} (h : l.Nodup) (p : ℕ → Bool) :
    l.filter (· ∉ l.takeWhile p) = l.dropWhile p := by
  have hsplit : l.takeWhile p ++ l.dropWhile p = l := List.takeWhile_append_dropWhile
  have hn : (l.takeWhile p ++ l.dropWhile p).Nodup := by rwa [hsplit]
  have hfilter := filter_notMem_append hn
  rwa [hsplit] at hfilter

/-! ## One call -/

/-- Two states of the requests that differ only in the message types. -/
def SameButMessage (reqs reqs' : ℕ → DramReq) : Prop :=
  ∀ r, ∃ m, reqs' r = { reqs r with msgType := m }

namespace SameButMessage

variable {reqs reqs' : ℕ → DramReq}

/-- Requests differ from themselves in no more than the message. -/
theorem refl (reqs : ℕ → DramReq) : SameButMessage reqs reqs := fun r => ⟨(reqs r).msgType, rfl⟩

/-- Two such differences compose. -/
theorem trans {reqs'' : ℕ → DramReq} (h : SameButMessage reqs reqs')
    (h' : SameButMessage reqs' reqs'') : SameButMessage reqs reqs'' := by
  intro r
  obtain ⟨m, hm⟩ := h r
  obtain ⟨m', hm'⟩ := h' r
  exact ⟨m', by rw [hm', hm]⟩

/-- Such a difference keeps the access. -/
theorem acc (h : SameButMessage reqs reqs') (r : ℕ) : (reqs' r).acc = (reqs r).acc := by
  obtain ⟨m, hm⟩ := h r
  rw [hm]

/-- Such a difference keeps the type. -/
theorem type (h : SameButMessage reqs reqs') (r : ℕ) : (reqs' r).type = (reqs r).type := by
  obtain ⟨m, hm⟩ := h r
  rw [hm]

/-- Such a difference keeps the time at which a request is ready. -/
theorem rdyCycle (h : SameButMessage reqs reqs') (r : ℕ) :
    (reqs' r).rdyCycle = (reqs r).rdyCycle := by
  obtain ⟨m, hm⟩ := h r
  rw [hm]

end SameButMessage

/-- The requests of one kind. -/
def ofKind (s : DramCtrl) (g : Bool) (l : List ℕ) : List ℕ :=
  l.filter fun r => (s.reqs r).acc = g

/-- The requests of one kind in two lists are those of the first and those of the second. -/
theorem ofKind_append (s : DramCtrl) (g : Bool) (l l' : List ℕ) :
    ofKind s g (l ++ l') = ofKind s g l ++ ofKind s g l' := List.filter_append ..

/-- The kind of a request does not depend on its message. -/
theorem ofKind_congr (h : SameButMessage s.reqs s'.reqs) (g : Bool) (l : List ℕ) :
    ofKind s' g l = ofKind s g l := by
  unfold ofKind
  refine List.filter_congr fun r _ => ?_
  rw [h.acc]

/-- Requests of which none is of the kind `g`. -/
theorem ofKind_eq_nil {g : Bool} {l : List ℕ} (h : ∀ r ∈ l, (s.reqs r).acc ≠ g) :
    ofKind s g l = [] := by
  unfold ofKind
  rw [List.filter_eq_nil_iff]
  intro r hr hg
  exact h r hr (of_decide_eq_true hg)

/-- The message by which a request goes back. -/
def fillMessage (s : DramCtrl) (r : ℕ) : DramSent :=
  ⟨r, .fill, (s.reqs r).llcId, s.cycle⟩

/-- The requests `out` went out, and nothing else happened. -/
structure Outgoing (out : List ℕ) (s s' : DramCtrl) : Prop where
  reqs : SameButMessage s.reqs s'.reqs
  sent : s'.sent = s.sent ++ out.map (fillMessage s)
  outputBuffer : s'.outputBuffer = s.outputBuffer
  incoming : s'.incoming = s.incoming
  tmpOutputBuffer : s'.tmpOutputBuffer = s.tmpOutputBuffer
  arrived : s'.arrived = s.arrived
  reclassified : s'.reclassified = s.reclassified
  accepted : s'.accepted = s.accepted
  flushed : s'.flushed = s.flushed
  retired : s'.retired = s.retired
  completed : s'.completed = s.completed
  cycle : s'.cycle = s.cycle

namespace Outgoing

/-- Sending nothing leaves the controller as it is. -/
theorem refl (s : DramCtrl) : Outgoing [] s s := by
  constructor
  case reqs => exact SameButMessage.refl _
  case sent => simp
  all_goals rfl

/-- Two sendings in sequence send the first list and then the second. -/
theorem trans {out out' : List ℕ} {t : DramCtrl} (h : Outgoing out s s')
    (h' : Outgoing out' s' t) : Outgoing (out ++ out') s t where
  reqs := h.reqs.trans h'.reqs
  sent := by
    have hfill : fillMessage s' = fillMessage s := by
      funext r
      obtain ⟨m, hm⟩ := h.reqs r
      simp [fillMessage, hm, h.cycle]
    rw [h'.sent, h.sent, hfill, List.map_append, List.append_assoc]
  outputBuffer := h'.outputBuffer.trans h.outputBuffer
  incoming := h'.incoming.trans h.incoming
  tmpOutputBuffer := h'.tmpOutputBuffer.trans h.tmpOutputBuffer
  arrived := h'.arrived.trans h.arrived
  reclassified := h'.reclassified.trans h.reclassified
  accepted := h'.accepted.trans h.accepted
  flushed := h'.flushed.trans h.flushed
  retired := h'.retired.trans h.retired
  completed := h'.completed.trans h.completed
  cycle := h'.cycle.trans h.cycle

end Outgoing

/-- Setting the message of a request changes nothing but messages. -/
theorem sameButMessage_modify (s : DramCtrl) (r : ℕ) (m : NocType) :
    SameButMessage s.reqs (s.modifyReq r fun req => { req with msgType := m }).reqs := by
  intro i
  by_cases hi : i = r
  · subst hi
    exact ⟨m, Function.update_self ..⟩
  · exact ⟨(s.reqs i).msgType, Function.update_of_ne hi _ _⟩

/-- A request is offered to the network. -/
theorem outgoing_offer (s : DramCtrl) (r : ℕ) :
    Outgoing [] s (s.modifyReq r fun req => { req with msgType := .fill }) := by
  constructor
  case reqs => exact sameButMessage_modify s r .fill
  case sent => simp [DramCtrl.modifyReq]
  all_goals rfl

/-- A request is offered and taken. -/
theorem outgoing_send (s : DramCtrl) (r : ℕ) :
    Outgoing [r] s
      ((s.modifyReq r fun req => { req with msgType := .fill }).sendReq r) := by
  constructor
  case reqs => exact sameButMessage_modify s r .fill
  case sent =>
    show s.sent ++ [_] = s.sent ++ [_]
    simp [DramCtrl.modifyReq, fillMessage]
  all_goals rfl

/-- What one pass over `l` does: of every kind a front part of `l` goes out, and only kinds
that were allowed and are checked afterwards. -/
theorem sendScan_spec (accepts : ℕ → Bool) (allowed : Bool → Bool) (l : List ℕ)
    (t : DramCtrl.SendState) :
    ∃ out, Outgoing out t.ctrl (DramCtrl.sendScan accepts allowed l t).ctrl ∧
      (DramCtrl.sendScan accepts allowed l t).tempList = t.tempList ++ out ∧
      (∀ r ∈ out, allowed (t.ctrl.reqs r).acc = true ∧
        (DramCtrl.sendScan accepts allowed l t).checked (t.ctrl.reqs r).acc = true) ∧
      (∀ g, t.checked g = true → (DramCtrl.sendScan accepts allowed l t).checked g = true) ∧
      ∀ g, ofKind t.ctrl g out <+: ofKind t.ctrl g l := by
  induction l generalizing t with
  | nil =>
      refine ⟨[], Outgoing.refl _, by simp [DramCtrl.sendScan], by simp, fun g hg => hg, ?_⟩
      exact fun g => List.prefix_rfl
  | cons r rest ih =>
      unfold DramCtrl.sendScan
      dsimp only
      set acc := (t.ctrl.reqs r).acc with hacc
      by_cases hall : allowed acc = true
      · rw [if_pos hall]
        have hchecked (g : Bool) (hg : t.checked g = true) :
            Function.update t.checked acc true g = true := by
          rw [Function.update_apply]
          split
          · rfl
          · exact hg
        by_cases hac : accepts r = true
        · rw [if_pos hac]
          -- the request goes out, and the pass continues
          obtain ⟨out, hout, htemp, hmem, hmono, hpre⟩ := ih
            ⟨Function.update t.checked acc true, t.tempList ++ [r],
              (t.ctrl.modifyReq r fun req => { req with msgType := .fill }).sendReq r⟩
          have hone := outgoing_send t.ctrl r
          refine ⟨r :: out, hone.trans hout, ?_, ?_, ?_, ?_⟩
          · rw [htemp, List.append_assoc]
            rfl
          · intro i hi
            rcases List.mem_cons.mp hi with rfl | hi
            · exact ⟨hall, hmono _ (Function.update_self ..)⟩
            · have := hmem i hi
              rw [hone.reqs.acc] at this
              exact this
          · exact fun g hg => hmono g (hchecked g hg)
          · intro g
            have hg := hpre g
            rw [ofKind_congr hone.reqs, ofKind_congr hone.reqs] at hg
            rw [show r :: out = [r] ++ out from rfl, show r :: rest = [r] ++ rest from rfl,
              ofKind_append, ofKind_append]
            exact (List.prefix_append_right_inj _).mpr hg
        · rw [if_neg hac]
          refine ⟨[], outgoing_offer t.ctrl r, by simp, by simp, hchecked, ?_⟩
          exact fun g => List.nil_prefix
      · rw [if_neg hall]
        obtain ⟨out, hout, htemp, hmem, hmono, hpre⟩ := ih t
        refine ⟨out, hout, htemp, hmem, hmono, ?_⟩
        intro g
        by_cases hg : acc = g
        · -- nothing of a kind that is not allowed goes out
          have hnil : ofKind t.ctrl g out = [] := by
            refine ofKind_eq_nil fun i hi hig => ?_
            have := (hmem i hi).1
            rw [hig, ← hg] at this
            exact hall this
          rw [hnil]
          exact List.nil_prefix
        · have hskip : ofKind t.ctrl g (r :: rest) = ofKind t.ctrl g rest := by
            unfold ofKind
            rw [List.filter_cons_of_neg]
            simpa using hg
          rw [hskip]
          exact hpre g

/-- What the passes do: of every kind a front part of the output buffer goes out. -/
theorem sendRounds_spec (s : DramCtrl) (accepts : ℕ → Bool) :
    ∃ out, Outgoing out s (DramCtrl.sendRounds k accepts s).ctrl ∧
      (DramCtrl.sendRounds k accepts s).tempList = out ∧
      ∀ g, ofKind s g out <+: ofKind s g s.outputBuffer := by
  unfold DramCtrl.sendRounds
  extract_lets t
  have hfirst : ∃ out, Outgoing out s t.ctrl ∧ t.tempList = out ∧
      (∀ r ∈ out, t.checked (s.reqs r).acc = true) ∧
      ∀ g, ofKind s g out <+: ofKind s g s.outputBuffer := by
    obtain ⟨out, hout, htemp, hmem, -, hpre⟩ :=
      sendScan_spec accepts _ s.outputBuffer ⟨fun _ => false, [], s⟩
    exact ⟨out, hout, htemp, fun r hr => (hmem r hr).2, hpre⟩
  obtain ⟨out, hout, htemp, hmem, hpre⟩ := hfirst
  split
  · obtain ⟨out', hout', htemp', hmem', -, hpre'⟩ :=
      sendScan_spec accepts (fun g => !t.checked g) t.ctrl.outputBuffer t
    refine ⟨out ++ out', hout.trans hout', ?_, ?_⟩
    · rw [← htemp]
      exact htemp'
    · intro g
      rw [ofKind_append]
      by_cases hchk : t.checked g = true
      · -- the first pass tried this kind, so the second skips it
        have hnil : ofKind s g out' = [] := by
          refine ofKind_eq_nil fun r hr hg => ?_
          have := (hmem' r hr).1
          rw [hout.reqs.acc, hg, hchk] at this
          exact absurd this (by simp)
        rw [hnil, List.append_nil]
        exact hpre g
      · have hnil : ofKind s g out = [] := by
          refine ofKind_eq_nil fun r hr hg => ?_
          exact hchk (hg ▸ hmem r hr)
        have hg' := hpre' g
        rw [ofKind_congr hout.reqs, ofKind_congr hout.reqs, hout.outputBuffer] at hg'
        rw [hnil, List.nil_append]
        exact hg'
  · exact ⟨out, hout, htemp, hpre⟩

/-- What `send` does. -/
theorem send_spec (s : DramCtrl) (accepts : ℕ → Bool) :
    ∃ out t, Outgoing out s t ∧ (∀ g, ofKind s g out <+: ofKind s g s.outputBuffer) ∧
      s.send k accepts = { t with outputBuffer := s.outputBuffer.filter (· ∉ out) } := by
  obtain ⟨out, hout, htemp, hpre⟩ := sendRounds_spec (k := k) s accepts
  refine ⟨out, _, hout, hpre, ?_⟩
  rw [DramCtrl.send, htemp, hout.outputBuffer]

/-- The requests that stay behind, of one kind. -/
theorem ofKind_remaining {out : List ℕ} {g : Bool} (hn : s.outputBuffer.Nodup)
    (hpre : ofKind s g out <+: ofKind s g s.outputBuffer) :
    ofKind s g out ++ ofKind s g (s.outputBuffer.filter (· ∉ out)) =
      ofKind s g s.outputBuffer := by
  obtain ⟨rest, hrest⟩ := hpre
  have hnodup : (ofKind s g out ++ rest).Nodup := by
    rw [hrest]
    exact hn.filter _
  have hswap : ofKind s g (s.outputBuffer.filter (· ∉ out)) =
      (ofKind s g s.outputBuffer).filter (· ∉ ofKind s g out) := by
    unfold ofKind
    rw [List.filter_filter, List.filter_filter]
    refine List.filter_congr fun r _ => ?_
    by_cases hg : (s.reqs r).acc = g <;> simp [hg]
  rw [hswap, ← hrest, filter_notMem_append hnodup]

/-- The requests that went out and those that stay behind are those that were there. -/
theorem perm_remaining {out : List ℕ} (hn : s.outputBuffer.Nodup)
    (hpre : ∀ g, ofKind s g out <+: ofKind s g s.outputBuffer) :
    (out ++ s.outputBuffer.filter (· ∉ out)).Perm s.outputBuffer := by
  have hsplit (l : List ℕ) : (ofKind s true l ++ ofKind s false l).Perm l := by
    have hnot : ofKind s false l = l.filter fun r => !decide ((s.reqs r).acc = true) := by
      refine List.filter_congr fun r _ => ?_
      cases (s.reqs r).acc <;> rfl
    rw [hnot]
    exact List.filter_append_perm _ l
  refine (hsplit _).symm.trans (List.Perm.trans ?_ (hsplit s.outputBuffer))
  rw [ofKind_append, ofKind_append, ofKind_remaining hn (hpre true),
    ofKind_remaining hn (hpre false)]

end MacSim.Analysis.Dram
