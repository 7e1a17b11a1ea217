import MacSim.Analysis.BackEndMoves
import MacSim.Computation.Partial

/-!
# The runs of the back end

The loops of the retire stage keep the invariant.  On a GPU core the list of ready uops holds
the heads of the reorder buffers of different threads, and it is cleared when there are fewer
of them than the width of the stage.
-/

set_option autoImplicit false

namespace MacSim.Analysis

open MacSim.Model MacSim.Computation

namespace BackEnd

/-! ## One uop -/

/-- A pop takes the first entry. -/
@[simp] theorem pop_entries (r : Rob) (num : ℕ) : (r.pop num).entries = r.entries.tail := by
  unfold Rob.pop
  dsimp only
  split <;> rfl

/-- The root of the orderings does not change which entries there are. -/
theorem updateRoot_entries {r r' : Rob} {uop : BackUop} (h : r.updateRoot uop = some r') :
    r'.entries = r.entries := by
  unfold Rob.updateRoot at h
  split at h
  · split at h
    · cases h
    · obtain rfl := Option.some.inj h
      rfl
  · obtain rfl := Option.some.inj h
    rfl

/-- A pop of a reorder buffer takes its first uop. -/
theorem popRob_eq {s : BackEnd} {t : ℤ} {p : UopPtr} {l : List UopPtr}
    (h : (s.rob t).entries = p :: l) :
    s.popRob t = some (popState s t ((s.rob t).pop (s.heap p).uopNum) p false) := by
  unfold BackEnd.popRob
  rw [h]
  simp [popState, BackEnd.setRob]

/-- On a GPU core a retired uop leaves the reorder buffer of its thread. -/
theorem retireGpu_leaves {k : BackKnobs} {s s' : BackEnd} {p : UopPtr} {rest : List UopPtr}
    (hgpu : k.gpu = true) (hmem : (s.heap p).threadId ∈ s.robs)
    (hfront : (s.rob (s.heap p).threadId).entries = p :: rest)
    (h : s.retireGpu k p = some s') : Leaves k s s' (s.heap p).threadId p rest false := by
  unfold BackEnd.retireGpu at h
  rw [if_neg (not_not.mpr hmem), popRob_eq hfront, Option.bind_some] at h
  obtain ⟨m, hm, hout⟩ := retireUop_cases h
  refine ⟨hmem, hfront, ⟨_, m, ?_, hm, hout⟩, by simp, fun hk => ?_⟩
  · rw [pop_entries, hfront, List.tail_cons]
  · rw [hk] at hgpu
    cases hgpu

/-- The retirement of a fence does not change which entries there are. -/
theorem retireFence_entries {k : BackKnobs} {s : BackEnd} {p : UopPtr} {r : Rob}
    (h : s.retireFence k p = some r) : r.entries = (s.rob 0).entries := by
  unfold BackEnd.retireFence at h
  split at h
  · exact updateRoot_entries h
  · obtain rfl := Option.some.inj h
    rfl

/-- The pop of a uop that may have been put into the write buffer. -/
theorem popRob_insertWb {k : BackKnobs} {s : BackEnd} {p : UopPtr} {rest : List UopPtr} {r : Rob}
    (hr : r.entries = p :: rest) : ((s.insertWb k p).setRob 0 r).popRob 0 =
      some (popState s 0 (r.pop (s.heap p).uopNum) p
        (decide (s.headVerdict k p = .toWriteBuffer))) := by
  unfold BackEnd.insertWb
  by_cases hv : s.headVerdict k p = .toWriteBuffer
  · rw [if_pos hv, popRob_eq (p := p) (l := rest) (by simp [BackEnd.setRob, hr])]
    simp [popState, BackEnd.setRob, BackEnd.numbers, BackEnd.own, hv]
  · rw [if_neg hv, popRob_eq (p := p) (l := rest) (by simp [BackEnd.setRob, hr])]
    simp [popState, BackEnd.setRob, BackEnd.numbers, BackEnd.own, hv]

/-- Only stores go into the write buffer, and only if it is used. -/
theorem headVerdict_toWriteBuffer {k : BackKnobs} {s : BackEnd} {p : UopPtr}
    (h : s.headVerdict k p = .toWriteBuffer) : k.useWb = true ∧ (s.heap p).memType = .st := by
  unfold BackEnd.headVerdict at h
  dsimp only at h
  split at h
  · rename_i hc
    exact ⟨hc.1, hc.2.1⟩
  · split at h
    · cases h
    · split at h <;> cases h

/-- A store that may go is put into the write buffer if it is used. -/
theorem headVerdict_store {k : BackKnobs} {s : BackEnd} {p : UopPtr}
    (hgo : s.headVerdict k p ≠ .wait) (huse : k.useWb = true) (hst : (s.heap p).memType = .st) :
    s.headVerdict k p = .toWriteBuffer := by
  unfold BackEnd.headVerdict at hgo ⊢
  dsimp only at hgo ⊢
  by_cases he : (s.heap p).execCycle = 0
  · rw [if_neg (fun hc => hc.2.2 he), if_pos (.inr (.inl he))] at hgo
    exact absurd rfl hgo
  · rw [if_pos ⟨huse, hst, he⟩] at hgo ⊢
    split at hgo
    · exact absurd rfl hgo
    · rename_i hfull
      rw [if_neg hfull]

/-- On a CPU core a retired uop leaves the one reorder buffer. -/
theorem retireCpu_leaves {k : BackKnobs} {s s' : BackEnd} {p : UopPtr} {rest : List UopPtr}
    (hgpu : k.gpu = false) (hmem : 0 ∈ s.robs) (hfront : (s.rob 0).entries = p :: rest)
    (hgo : s.headVerdict k p ≠ .wait) (h : s.retireCpu k p = some s') :
    Leaves k s s' 0 p rest (decide (s.headVerdict k p = .toWriteBuffer)) := by
  unfold BackEnd.retireCpu at h
  obtain ⟨r, hr, h⟩ := Option.bind_eq_some_iff.mp h
  have hrent : r.entries = p :: rest := (retireFence_entries hr).trans hfront
  rw [popRob_insertWb hrent] at h
  obtain ⟨m, hm, hout⟩ := retireUop_cases h
  refine ⟨hmem, hfront, ⟨_, m, ?_, hm, hout⟩, fun hw => ?_, fun _ huse hst => ?_⟩
  · rw [pop_entries, hrent, List.tail_cons]
  · exact ⟨hgpu, headVerdict_toWriteBuffer (of_decide_eq_true hw)⟩
  · exact decide_eq_true (headVerdict_store hgo huse hst)

/-! ## The loops -/

/-- The uops `l` are at the heads of the reorder buffers of different threads. -/
structure Heads (s : BackEnd) (l : List UopPtr) : Prop where
  nodup : (l.map fun p => (s.heap p).threadId).Nodup
  head : ∀ p ∈ l, (s.heap p).threadId ∈ s.robs ∧
    ∃ rest, (s.rob (s.heap p).threadId).entries = p :: rest

/-- What the retirement of `q` looks at is the same in both states. -/
structure SameView (s s' : BackEnd) (q : UopPtr) : Prop where
  heap : s'.heap q = s.heap q
  entries : (s'.rob (s.heap q).threadId).entries = (s.rob (s.heap q).threadId).entries
  insts : s'.instsRetired (s.heap q).threadId = s.instsRetired (s.heap q).threadId
  finished : s'.threadFinished (s.heap q).threadId = s.threadFinished (s.heap q).threadId

/-- The other heads do not notice a retirement. -/
theorem Heads.tail {k : BackKnobs} {s s' : BackEnd} {p : UopPtr} {l rest : List UopPtr}
    (h : Heads s (p :: l)) (hs : Held k s)
    (hl : Leaves k s s' (s.heap p).threadId p rest false) :
    Heads s' l ∧ ∀ q ∈ l, SameView s s' q := by
  obtain ⟨hp, hnd⟩ := List.nodup_cons.mp h.nodup
  obtain ⟨m, hm, heq⟩ := hl.middle hs
  have hfields : s'.robs = m.robs ∧ s'.rob = m.rob ∧ s'.instsRetired = m.instsRetired ∧
      s'.threadFinished = m.threadFinished := by
    rw [heq]
    split
    · exact ⟨rfl, rfl, rfl, rfl⟩
    · obtain ⟨_, _, _, hf⟩ := freeUopResources_fields m p
      rw [hf]
      exact ⟨rfl, rfl, rfl, rfl⟩
  obtain ⟨hrobs, hrob, hinsts, hfin⟩ := hfields
  have hother : ∀ q ∈ l, (s.heap q).threadId ≠ (s.heap p).threadId := fun q hq he =>
    hp (List.mem_map.mpr ⟨q, hq, he⟩)
  have hentries : ∀ q ∈ l, s'.rob (s.heap q).threadId = s.rob (s.heap q).threadId := by
    intro q hq
    obtain ⟨r, -, hr⟩ := hm.rob
    rw [hrob, hr, Function.update_of_ne (hother q hq)]
  have hmem : ∀ q ∈ l, (s.heap q).threadId ∈ s'.robs := by
    intro q hq
    have hin := (h.head q (List.mem_cons_of_mem p hq)).1
    rw [hrobs, hm.robs]
    split
    · exact (List.mem_erase_of_ne (hother q hq)).mpr hin
    · exact hin
  have hheap : ∀ q ∈ l, s'.heap q = s.heap q := by
    intro q hq
    obtain ⟨-, rest', hrest⟩ := h.head q (List.mem_cons_of_mem p hq)
    refine hl.heap hs (List.mem_append_right _ (mem_inRob.mpr ⟨_, hmem q hq, ?_⟩))
    rw [hentries q hq, hrest]
    exact List.mem_cons_self
  have hids : l.map (fun q => (s'.heap q).threadId) = l.map fun q => (s.heap q).threadId :=
    List.map_congr_left fun q hq => by rw [hheap q hq]
  refine ⟨⟨hids ▸ hnd, fun q hq => ?_⟩, fun q hq => ⟨hheap q hq, by rw [hentries q hq], ?_, ?_⟩⟩
  · rw [hheap q hq, hentries q hq]
    exact ⟨hmem q hq, (h.head q (List.mem_cons_of_mem p hq)).2⟩
  · rw [hinsts, hm.insts _ (hother q hq)]
  · rw [hfin, hm.finished _ (hother q hq)]

/-- The list of ready uops is not in the books. -/
theorem Held.setUopList {k : BackKnobs} {s : BackEnd} (h : Held k s) (l : List UopPtr) :
    Held k { s with uopList := l } :=
  ⟨h.books.congr (SameIds.of_heap rfl) rfl rfl rfl,
    h.shape.congr rfl (fun _ => rfl) rfl fun _ _ => ⟨rfl, rfl⟩⟩

/-- The loop rule of a GPU core: `I` holds from round to round if it does under the condition
`C` on the uop that is retired. -/
theorem retireGpuLoop_rule {k : BackKnobs} {I : BackEnd → Prop} {C : BackEnd → UopPtr → Prop}
    (hgpu : k.gpu = true)
    (hI : ∀ s s' p rest, Held k s → I s → C s p →
      Leaves k s s' (s.heap p).threadId p rest false → I s')
    (hlist : ∀ s l, I s → I { s with uopList := l })
    (hC : ∀ s s' q, SameView s s' q → C s q → C s' q) (n : ℕ) (l : List UopPtr)
    {s s' : BackEnd} (hs : Held k s) (hi : I s) (hl : Heads s l) (hcond : ∀ q ∈ l, C s q)
    (hlen : l.length < n) (h : s.retireGpuLoop k n l = some s') :
    Held k s' ∧ I s' ∧ s'.uopList = [] := by
  induction l generalizing n s with
  | nil =>
      obtain ⟨n, rfl⟩ := Nat.exists_eq_add_one_of_ne_zero (Nat.ne_of_gt hlen)
      obtain rfl := Option.some.inj h
      exact ⟨hs.setUopList [], hlist s [] hi, rfl⟩
  | cons p l ih =>
      obtain ⟨n, rfl⟩ := Nat.exists_eq_add_one_of_ne_zero (Nat.ne_of_gt (Nat.zero_lt_of_lt hlen))
      obtain ⟨m, hm, h⟩ := Option.bind_eq_some_iff.mp h
      obtain ⟨hmem, rest, hfront⟩ := hl.head p List.mem_cons_self
      have hleave := retireGpu_leaves hgpu hmem hfront hm
      obtain ⟨htail, hview⟩ := hl.tail hs hleave
      refine ih n (hleave.held hs) (hI s m p rest hs hi (hcond p List.mem_cons_self) hleave) htail
        (fun q hq => ?_) (by simpa using hlen) h
      exact hC s m q (hview q hq) (hcond q (List.mem_cons_of_mem p hq))

/-- The loop rule of a CPU core. -/
theorem retireCpuLoop_rule {k : BackKnobs} {I : BackEnd → Prop} (hgpu : k.gpu = false)
    (hI : ∀ s s' p rest toWb, Held k s → I s → Leaves k s s' 0 p rest toWb → I s') (n : ℕ)
    {s s' : BackEnd} (hs : Held k s) (hi : I s) (h : s.retireCpuLoop k n = some s') :
    Held k s' ∧ I s' := by
  induction n generalizing s with
  | zero =>
      obtain rfl := Option.some.inj h
      exact ⟨hs, hi⟩
  | succ n ih =>
      unfold BackEnd.retireCpuLoop at h
      split at h
      · obtain rfl := Option.some.inj h
        exact ⟨hs, hi⟩
      · rename_i p rest hfront
        split at h
        · obtain rfl := Option.some.inj h
          exact ⟨hs, hi⟩
        · rename_i hgo
          obtain ⟨m, hm, h⟩ := Option.bind_eq_some_iff.mp h
          have hmem : (0 : ℤ) ∈ s.robs := by simp [hs.shape.cpu hgpu]
          have hleave := retireCpu_leaves hgpu hmem hfront hgo hm
          exact ih (hleave.held hs) (hI s m p rest _ hs hi hleave) h

/-- The ready uops are heads of different reorder buffers. -/
theorem readyUops_heads {k : BackKnobs} {s : BackEnd} (hgpu : k.gpu = true) (hs : Held k s)
    {order : List ℤ} (horder : order.Perm s.robs) : Heads s (s.readyUops order) := by
  have hfront : ∀ t ∈ order, ∀ p rest, (s.rob t).entries = p :: rest →
      (s.heap p).threadId = t := by
    intro t ht p rest hp
    have := hs.shape.keyed t (horder.mem_iff.mp ht) p (hp ▸ List.mem_cons_self)
    rwa [BackEnd.robKey, if_pos hgpu] at this
  have hsub : ((s.readyUops order).map fun p => (s.heap p).threadId).Sublist order := by
    have hin : ∀ t ∈ order, t ∈ order := fun _ ht => ht
    generalize order = o at hin hfront ⊢
    unfold BackEnd.readyUops
    clear hin
    induction o with
    | nil => exact List.nil_sublist _
    | cons t o ih =>
        have ih := ih fun u hu => hfront u (List.mem_cons_of_mem t hu)
        rw [List.filterMap_cons]
        split
        · exact ih.trans (List.sublist_cons_self _ _)
        · rename_i q hq
          split at hq
          · cases hq
          · rename_i p rest hp
            split at hq
            · obtain rfl := Option.some.inj hq
              rw [List.map_cons, hfront t List.mem_cons_self p rest hp]
              exact ih.cons_cons t
            · cases hq
  refine ⟨(horder.nodup_iff.mpr hs.shape.nodup).sublist hsub, fun p hp => ?_⟩
  obtain ⟨t, ht, hq⟩ := List.mem_filterMap.mp hp
  split at hq
  · cases hq
  · rename_i q rest hq'
    split at hq
    · obtain rfl := Option.some.inj hq
      rw [hfront t ht q rest hq']
      exact ⟨horder.mem_iff.mp ht, rest, hq'⟩
    · cases hq

/-! ## Draining the write buffer -/

/-- What the drain leaves: some uops of the write buffer are released. -/
structure Drained (s s' : BackEnd) (wb other : List UopPtr) : Prop where
  fields : ∃ heap pool released wb', s' =
    { s with heap := heap, pool := pool, released := released, writeBuffer := wb' }
  books : Books s' (s'.writeBuffer ++ other)
  sub : s'.writeBuffer.Sublist wb
  heap : ∀ q ∈ s'.writeBuffer ++ other, s'.heap q = s.heap q
  ids : SameIds s s'
  ledger : (s'.released ++ s'.writeBuffer.flatMap s'.numbers).Perm
    (s.released ++ wb.flatMap s.numbers)

/-- The loop over the write buffer drains what it does not keep. -/
theorem drainLoop_drained {k : BackKnobs} (rest kept : List UopPtr) {s : BackEnd}
    {other : List UopPtr} (hb : Books s (kept ++ rest ++ other)) :
    Drained s (s.drainLoop k kept rest) (kept ++ rest) other := by
  have hstay : ∀ (s : BackEnd) (l : List UopPtr), Books s (l ++ other) →
      Drained s { s with writeBuffer := l } l other := fun s l hb =>
    { fields := ⟨_, _, _, _, rfl⟩
      books := hb.congr (SameIds.of_heap rfl) rfl rfl rfl
      sub := List.Sublist.refl _
      heap := fun _ _ => rfl
      ids := SameIds.of_heap rfl
      ledger := List.Perm.refl _ }
  induction rest generalizing kept s with
  | nil =>
      rw [List.append_nil] at hb ⊢
      exact hstay s kept hb
  | cons p rest ih =>
      unfold BackEnd.drainLoop
      split
      · exact hstay s (kept ++ p :: rest) hb
      · have := ih (kept ++ [p]) (s := s) (by simpa using hb)
        simpa using this
      · have hperm : (kept ++ p :: rest ++ other).Perm (p :: (kept ++ rest ++ other)) := by
          rw [List.append_assoc, List.append_assoc]
          exact List.perm_middle
        have hb' := hb.perm hperm
        have hd := ih kept hb'.free
        have hids := freeUopResources_ids s p
        obtain ⟨heap, pool, released, hfree⟩ := freeUopResources_fields s p
        obtain ⟨heap', pool', released', wb', hdrain⟩ := hd.fields
        have hsub : (kept ++ rest).Sublist (kept ++ p :: rest) :=
          (List.sublist_cons_self p rest).append_left kept
        refine ⟨⟨heap', pool', released', wb', ?_⟩, hd.books, hd.sub.trans hsub, fun q hq => ?_,
          fun q => ?_, ?_⟩
        · rw [hdrain, hfree]
        · have hmem : q ∈ kept ++ rest ++ other := by
            rcases List.mem_append.mp hq with hq | hq
            · exact List.mem_append_left _ (hd.sub.subset hq)
            · exact List.mem_append_right _ hq
          rw [hd.heap q hq, freeUopResources_heap hb' hmem]
        · exact ⟨(hd.ids q).1.trans (hids q).1, (hd.ids q).2.trans (hids q).2⟩
        · refine hd.ledger.trans ?_
          rw [hids.numbers]
          refine ((freeUopResources_released s p).append_right _).trans ?_
          rw [List.append_assoc]
          refine List.Perm.append_left _ ?_
          have hmiddle : (kept ++ p :: rest).Perm (p :: (kept ++ rest)) := List.perm_middle
          have hnumbers := hmiddle.symm.flatMap_right s.numbers
          simpa using hnumbers

/-- The write buffer is drained, and the reorder buffers keep their entries. -/
theorem drainWb_drained {k : BackKnobs} {s s' : BackEnd} (hs : Held k s)
    (h : s.drainWb k = some s') : ∃ m, Drained s m s.writeBuffer (s.frontendQ ++ inRob s) ∧
      ∃ r, s' = { m with rob := r } ∧ ∀ t, (r t).entries = (m.rob t).entries := by
  have hperm : (held s).Perm (s.writeBuffer ++ (s.frontendQ ++ inRob s)) := by
    rw [BackEnd.held, ← List.append_assoc]
    exact List.perm_append_comm
  have hb := hs.books.perm hperm
  unfold BackEnd.drainWb at h
  split at h
  · rename_i hempty
    obtain rfl := Option.some.inj h
    have hnil := List.isEmpty_iff.mp hempty
    refine ⟨s, ⟨⟨_, _, _, _, rfl⟩, hb, List.Sublist.refl _, fun _ _ => rfl, fun _ => ⟨rfl, rfl⟩,
      List.Perm.refl _⟩, s.rob, rfl, fun _ => rfl⟩
  · have hd := drainLoop_drained (k := k) s.writeBuffer [] (s := s) (by simpa using hb)
    dsimp only at h
    obtain ⟨r₁, hr₁, h⟩ := Option.bind_eq_some_iff.mp h
    obtain ⟨r₂, hr₂, h⟩ := Option.bind_eq_some_iff.mp h
    have hent : ∀ {r r' : Rob} {a : ℕ}, r.updateOrq a = some r' → r'.entries = r.entries := by
      intro r r' a hr
      obtain ⟨x, -, rfl⟩ := Option.map_eq_some_iff.mp hr
      rfl
    refine ⟨_, by simpa using hd, _, (Option.some.inj h).symm, fun t => ?_⟩
    by_cases ht : t = 0
    · subst ht
      rw [Function.update_self, hent hr₂, hent hr₁]
    · rw [Function.update_of_ne ht]

/-- Draining the write buffer keeps the books, the ledger and the resources. -/
theorem Held.drainWb {k : BackKnobs} {s s' : BackEnd} (hs : Held k s)
    (h : s.drainWb k = some s') : Held k s' ∧ s'.uopList = s.uopList ∧
      (Ledger s → Ledger s') ∧ (Resources k s → Resources k s') := by
  obtain ⟨m, hd, r, rfl, hent⟩ := drainWb_drained hs h
  have hin : inRob { m with rob := r } = inRob s := by
    obtain ⟨_, _, _, _, rfl⟩ := hd.fields
    exact List.flatMap_congr fun t _ => hent t
  have hheap : ∀ q ∈ inRob s ++ m.writeBuffer, m.heap q = s.heap q := by
    intro q hq
    refine hd.heap q ?_
    simp only [List.mem_append] at hq ⊢
    tauto
  obtain ⟨heap, pool, released, wb', hm⟩ := hd.fields
  refine ⟨⟨?_, ?_⟩, by rw [hm], fun hl => ?_, fun hres => ⟨fun c => ?_, fun q hq c => ?_⟩⟩
  · have hperm : (m.writeBuffer ++ (s.frontendQ ++ inRob s)).Perm
        (held { m with rob := r }) := by
      rw [BackEnd.held, hin]
      have hfq : m.frontendQ = s.frontendQ := by rw [hm]
      change List.Perm _ (m.frontendQ ++ (inRob s ++ m.writeBuffer))
      rw [hfq, ← List.append_assoc s.frontendQ]
      exact List.perm_append_comm
    exact (hd.books.perm hperm).congr (SameIds.of_heap rfl) rfl rfl rfl
  · have hshape : Shape k { s with writeBuffer := m.writeBuffer } :=
      { nodup := hs.shape.nodup
        nonneg := hs.shape.nonneg
        cpu := hs.shape.cpu
        keyed := hs.shape.keyed
        stores := fun q hq => hs.shape.stores q (hd.sub.subset hq)
        gpu := fun hk => List.eq_nil_of_subset_nil (hs.shape.gpu hk ▸ hd.sub.subset) }
    refine hshape.congr (by rw [hm]) (fun t => (hent t).trans (by rw [hm])) rfl fun q hq => ?_
    have := hheap q hq
    exact ⟨congrArg BackUop.threadId this, congrArg BackUop.memType this⟩
  · have hpop : m.popped = s.popped := by rw [hm]
    have hnumbers : BackEnd.numbers { m with rob := r } = m.numbers := rfl
    unfold Ledger at hl ⊢
    rw [hnumbers]
    change m.popped.Perm (m.released ++ m.writeBuffer.flatMap m.numbers)
    rw [hpop]
    exact hl.trans hd.ledger.symm
  · have hfree : m.free = s.free := by rw [hm]
    have hcount : (inRob s).countP (fun q => (m.heap q).req c) =
        (inRob s).countP (fun q => (s.heap q).req c) :=
      List.countP_congr fun q hq => by rw [hheap q (List.mem_append_left _ hq)]
    rw [hin]
    change m.free c + (inRob s).countP (fun q => (m.heap q).req c) = _
    rw [hfree, hcount]
    exact hres.counts c
  · have hfq : m.frontendQ = s.frontendQ := by rw [hm]
    have hq : q ∈ s.frontendQ := hfq ▸ hq
    have hsame : m.heap q = s.heap q :=
      hd.heap q (List.mem_append_right _ (List.mem_append_left _ hq))
    exact (congrArg (fun u : BackUop => u.req c) hsame).trans (hres.fresh q hq c)

/-! ## Steps and runs -/

/-- The GPU core uses up its list of ready uops in this cycle. -/
def ListFits (k : BackKnobs) (s : BackEnd) (order : List ℤ) : Prop :=
  k.gpu = true → (s.readyUops order).length < gpuRetireWidth

/-- The rule for the retire stage: `I` holds after the stage if one retirement keeps it under
the condition `C`, and if the drain keeps it. -/
theorem retireCycle_rule {k : BackKnobs} {I : BackEnd → Prop} {C : BackEnd → UopPtr → Prop}
    (hgpuI : k.gpu = true → ∀ s s' p rest, Held k s → I s → C s p →
      Leaves k s s' (s.heap p).threadId p rest false → I s')
    (hcpuI : k.gpu = false → ∀ s s' p rest toWb, Held k s → I s →
      Leaves k s s' 0 p rest toWb → I s')
    (hlist : ∀ s l, I s → I { s with uopList := l })
    (hC : ∀ s s' q, SameView s s' q → C s q → C s' q)
    (hdrain : ∀ s s', Held k s → I s → s.drainWb k = some s' → I s')
    {s s' : BackEnd} {order : List ℤ} (hs : Held k s) (hi : I s) (hempty : s.uopList = [])
    (horder : order.Perm s.robs) (hfit : ListFits k s order)
    (hcond : k.gpu = true → ∀ q ∈ s.readyUops order, C s q)
    (h : s.retireCycle k order = some s') : Held k s' ∧ I s' ∧ s'.uopList = [] := by
  obtain ⟨m, hm, h⟩ := Option.bind_eq_some_iff.mp h
  have hloop : Held k m ∧ I m ∧ m.uopList = [] := by
    unfold BackEnd.retireLoop at hm
    split at hm
    · rename_i hgpu
      dsimp only at hm
      rw [hempty, List.nil_append] at hm
      have hheads := readyUops_heads hgpu hs horder
      have hheads' : Heads { s with uopList := s.readyUops order } (s.readyUops order) :=
        ⟨hheads.nodup, hheads.head⟩
      refine retireGpuLoop_rule hgpu (hgpuI hgpu) hlist hC _ _ (hs.setUopList _) (hlist s _ hi)
        hheads' (fun q hq => ?_) (hfit hgpu) hm
      exact hC s _ q ⟨rfl, rfl, rfl, rfl⟩ (hcond hgpu q hq)
    · rename_i hgpu
      have hgpu := Bool.not_eq_true _ ▸ hgpu
      have := retireCpuLoop_rule (I := fun s => I s ∧ s.uopList = []) hgpu
        (fun s s' p rest toWb hh hi hl => ⟨hcpuI hgpu s s' p rest toWb hh hi.1 hl, by
          obtain ⟨m, hm, rfl⟩ := hl.middle hh
          split
          · rw [hm.uopList, hi.2]
          · obtain ⟨_, _, _, hf⟩ := freeUopResources_fields m p
            rw [hf]
            exact hm.uopList.trans hi.2⟩) _ hs ⟨hi, hempty⟩ hm
      exact ⟨this.1, this.2.1, this.2.2⟩
  obtain ⟨hh, hi', hl⟩ := hloop
  obtain ⟨hheld, hlist', -⟩ := hh.drainWb h
  exact ⟨hheld, hdrain m s' hh hi' h, hlist'.trans hl⟩

end BackEnd

end MacSim.Analysis
