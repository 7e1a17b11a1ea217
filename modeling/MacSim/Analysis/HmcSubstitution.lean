import MacSim.Analysis.TraceDelivery
import MacSim.Computation.SpanRewrite
import MacSim.Model.HmcReader

/-!
# The substitution of HMC instructions

The reader with HMC instructions looks at the records behind the first one as they come, so it
rewrites the spans of the trace in one pass.  What it delivers is the first record and what the
pass makes of the records that the reader of the trace lets it see.
-/

set_option autoImplicit false

namespace MacSim.Analysis

open MacSim.Model
open MacSim.Computation

/-! ## The records ahead -/

section Ahead

variable {ρ : Type} {k : TraceKnobs ρ} {s : TraceThread ρ}

/-- The records behind the first one that count as read when they are read. -/
def seenRecords (k : TraceKnobs ρ) (file : List ρ) : List ρ :=
  if (file.length - 1) % k.bufferSize = 0 then file.tail else file.tail.dropLast

/-- The records that the reader of the trace still counts as read. -/
structure Ahead (k : TraceKnobs ρ) (s : TraceThread ρ) (l : List ρ) : Prop where
  ended : s.traceEnded = false
  reading : ∃ t c, TraceThread.Reading k s t c ∧ t ≤ (seenRecords k s.file).length ∧
    l = (seenRecords k s.file).drop t

/-- The records seen are one less than the records delivered. -/
theorem seenRecords_length (k : TraceKnobs ρ) {file : List ρ} (hne : file ≠ []) :
    (seenRecords k file).length + 1 = TraceThread.deliveredCount k file := by
  have hlen := List.length_pos_of_ne_nil hne
  unfold seenRecords TraceThread.deliveredCount
  split
  · rw [List.length_tail]
    omega
  · rename_i hz
    have hone : file.length - 1 ≠ 0 := fun he => hz (by rw [he, Nat.zero_mod])
    rw [List.length_dropLast, List.length_tail]
    omega

/-- The records seen are those of the file after the first. -/
theorem seenRecords_getElem (k : TraceKnobs ρ) {file : List ρ} {t : ℕ}
    (ht : t < (seenRecords k file).length) : (seenRecords k file)[t]? = file[1 + t]? := by
  unfold seenRecords at ht ⊢
  split
  · rw [List.getElem?_tail, Nat.add_comm]
  · rename_i hz
    rw [if_neg hz] at ht
    rw [List.getElem?_dropLast, if_pos (by rwa [List.length_dropLast] at ht),
      List.getElem?_tail, Nat.add_comm]

/-- After the set-up all the records that are seen lie ahead. -/
theorem ahead_setup (hB : 0 < k.bufferSize) (file : List ρ) (junk : ρ) (hne : file ≠ []) :
    Ahead k (TraceThread.setup file junk) (seenRecords k file) := by
  obtain ⟨c, hc⟩ := (TraceThread.AtInst.setup (k := k) hB junk hne).reading
  exact ⟨rfl, 0, c, hc, Nat.zero_le _, rfl⟩

/-- Whether a record counts as read, while the trace has not ended. -/
theorem readTrace_ended (h : s.traceEnded = false) :
    (s.readTrace k).2.traceEnded = !(s.readTrace k).1 := by
  unfold TraceThread.readTrace
  rw [if_neg (by simp [h])]

/-- Reading a record keeps the file. -/
theorem readTrace_file (k : TraceKnobs ρ) (s : TraceThread ρ) :
    (s.readTrace k).2.file = s.file := by
  unfold TraceThread.readTrace
  split
  · rfl
  · dsimp only
    split <;> rfl

/-- A record ahead is read. -/
theorem Ahead.read {x : ρ} {l : List ρ} (h : Ahead k s (x :: l)) :
    (s.readTrace k).1 = true ∧ (s.readTrace k).2.next = x ∧ Ahead k (s.readTrace k).2 l := by
  obtain ⟨t, c, hreading, hle, heq⟩ := h.reading
  have hlt : t < (seenRecords k s.file).length := by
    by_contra hcon
    rw [List.drop_eq_nil_of_le (by omega)] at heq
    cases heq
  have hne : s.file ≠ [] := by
    intro hnil
    rw [hnil] at hlt
    simp [seenRecords] at hlt
  have hcount := seenRecords_length k hne
  have hfile : t + 1 < s.file.length ∧
      ((s.file.length - 1) % k.bufferSize = 0 ∨ t + 2 < s.file.length) := by
    unfold TraceThread.deliveredCount at hcount
    split at hcount
    case isTrue hz => exact ⟨by omega, Or.inl hz⟩
    case isFalse => exact ⟨by omega, Or.inr (by omega)⟩
  obtain ⟨hnext, hiff, hgo⟩ := hreading.readTrace h.ended hfile.1
  have hread := hiff.mpr hfile.2
  obtain ⟨c', hreading'⟩ := hgo hread
  rw [List.drop_eq_getElem_cons hlt, List.cons.injEq] at heq
  refine ⟨hread, ?_, ?_, t + 1, c', hreading', ?_, ?_⟩
  · have hget := seenRecords_getElem k hlt
    rw [List.getElem?_eq_getElem hlt, hnext, Option.some.injEq] at hget
    rw [← hget, heq.1]
  · rw [readTrace_ended h.ended, hread]
    rfl
  · rw [readTrace_file]
    omega
  · rw [readTrace_file, heq.2]

/-- With no record ahead the trace ends. -/
theorem Ahead.read_nil (h : Ahead k s []) (hne : s.file ≠ []) :
    (s.readTrace k).1 = false ∧ (s.readTrace k).2.traceEnded = true := by
  obtain ⟨t, c, hreading, hle, heq⟩ := h.reading
  have ht : t = (seenRecords k s.file).length := by
    have := congrArg List.length heq
    rw [List.length_drop, List.length_nil] at this
    omega
  have hcount := seenRecords_length k hne
  have hlen := List.length_pos_of_ne_nil hne
  suffices hread : (s.readTrace k).1 = false by
    refine ⟨hread, ?_⟩
    rw [readTrace_ended h.ended, hread]
    rfl
  unfold TraceThread.deliveredCount at hcount
  split at hcount
  case isTrue hz =>
    -- the chunk was full, so the next one starts here and is empty
    have hdvd : k.bufferSize ∣ t - c := by
      refine Nat.dvd_sub ?_ hreading.whole
      rw [show t = s.file.length - 1 by omega]
      exact Nat.dvd_of_mod_eq_zero hz
    have hct : c = t := by
      have hshort := hreading.short
      have hstart := hreading.start
      have := Nat.eq_zero_of_dvd_of_lt hdvd (by omega)
      omega
    subst hct
    exact (hreading.readTrace_end h.ended (by omega)).1
  case isFalse hz =>
    obtain ⟨-, hiff, -⟩ := hreading.readTrace h.ended (by omega)
    refine Bool.eq_false_iff.mpr fun hread => ?_
    rcases hiff.mp hread with hz' | hlt
    · exact hz hz'
    · omega

/-- Reading changes the reader only. -/
theorem readTrace_fields (k : TraceKnobs ρ) (s : TraceThread ρ) :
    ∃ pos buffer index indexMax exhausted next ended, (s.readTrace k).2 =
      { s with
        pos := pos, buffer := buffer, bufferIndex := index, bufferIndexMax := indexMax
        bufferExhausted := exhausted, next := next, traceEnded := ended } := by
  unfold TraceThread.readTrace
  split
  · exact ⟨_, _, _, _, _, _, _, rfl⟩
  · dsimp only
    split
    · exact ⟨_, _, _, _, _, _, _, rfl⟩
    · exact ⟨_, _, _, _, _, _, _, rfl⟩

end Ahead

/-! ## What should be delivered -/

/-- An instruction for the decoder: a record of the trace, or a generated one with the address of
the caller, its type and its target address. -/
inductive HmcItem where
  | raw (r : TraceInfoCpu)
  | hmc (callerPc : Addr) (type : HmcType) (vaddr : Addr)

/-- The load address of the last record at the `addr_pc` of the entry. -/
def lastLoadAddr (inst : HmcInst) (span : List TraceInfoCpu) : Addr :=
  (((span.filter fun r => r.instructionAddr = inst.addrPc).getLast?).map (·.ldVaddr1)).getD 0

/-- The spans of the HMC info table. -/
def hmcRules (lines : List HmcInst) : SpanRules TraceInfoCpu HmcInst HmcItem where
  opens := fun r => lines.find? fun inst => inst.callerPc = r.instructionAddr
  closes := fun inst r => decide (r.instructionAddr = inst.retPc)
  raw := .raw
  made := fun inst span => .hmc inst.callerPc (hmcString2Type inst.name) (lastLoadAddr inst span)

/-- What a record handed to the decoder, with its mark, stands for. -/
def Delivers (d : TraceInfoCpu × HmcType) : HmcItem → Prop
  | .raw r => d = (r, .none)
  | .hmc callerPc type vaddr => ∃ uninit, d = (generateHmcInst callerPc vaddr uninit, type)

/-- The whole trace has been handed to the decoder, with every span replaced. -/
structure Substituted (k : HmcKnobs) (file : List TraceInfoCpu) (s : HmcThread) : Prop where
  ended : s.fetchEnded = true
  items : List.Forall₂ Delivers s.delivered ((hmcRules k.lines).substitute file)

/-! ## The table -/

/-- One line for each caller: the entries of the table are the lines. -/
theorem foldl_addLine_info {lines : List HmcInst} (hnodup : (lines.map HmcInst.callerPc).Nodup)
    {t : HmcInfo} (hfresh : ∀ inst ∈ lines, t.info inst.callerPc = none) (pc : Addr) :
    (lines.foldl HmcInfo.addLine t).info pc =
      ((lines.find? fun inst => inst.callerPc = pc).map fun inst => { inst with cnt := 1 }).or
        (t.info pc) := by
  induction lines generalizing t with
  | nil => simp
  | cons inst lines ih =>
    rw [List.map_cons, List.nodup_cons] at hnodup
    have hself : t.info inst.callerPc = none := hfresh inst (List.mem_cons_self ..)
    have hrest : ∀ inst' ∈ lines, (t.addLine inst).info inst'.callerPc = none := by
      intro inst' hmem
      have hne : inst'.callerPc ≠ inst.callerPc := by
        intro heq
        exact hnodup.1 (heq ▸ List.mem_map_of_mem hmem)
      rw [HmcInfo.addLine]
      simp only [if_neg hne]
      exact hfresh inst' (List.mem_cons_of_mem _ hmem)
    rw [List.foldl_cons, ih hnodup.2 hrest, List.find?_cons]
    by_cases hpc : inst.callerPc = pc
    · have hnone : lines.find? (fun inst => decide (inst.callerPc = pc)) = none := by
        rw [List.find?_eq_none]
        intro inst' hmem heq
        exact hnodup.1 (hpc ▸ of_decide_eq_true heq ▸ List.mem_map_of_mem hmem)
      subst hpc
      simp [hnone, HmcInfo.addLine, hself]
    · have hpc' : ¬ pc = inst.callerPc := fun h => hpc h.symm
      simp [hpc, hpc', HmcInfo.addLine]

/-- The table answers with the first line for an address. -/
theorem read_info {lines : List HmcInst} (hnodup : (lines.map HmcInst.callerPc).Nodup)
    (pc : Addr) : (HmcInfo.read lines).info pc =
      (lines.find? fun inst => inst.callerPc = pc).map fun inst => { inst with cnt := 1 } := by
  rw [HmcInfo.read, foldl_addLine_info hnodup (fun _ _ => rfl), Option.or_none]

/-- The target address after some records is that of the last one at `addr_pc`. -/
theorem foldl_targetVaddr (inst : HmcInst) (l : List TraceInfoCpu) :
    l.foldl (HmcThread.targetVaddr inst) 0 = lastLoadAddr inst l := by
  induction l using List.reverseRecOn with
  | nil => rfl
  | append_singleton l r ih =>
    rw [List.foldl_append, ih, List.foldl_cons, List.foldl_nil, HmcThread.targetVaddr,
      lastLoadAddr, lastLoadAddr, List.filter_append]
    by_cases h : r.instructionAddr = inst.addrPc
    · simp [h]
    · simp [h]

/-! ## The reader -/

variable {k : HmcKnobs}

/-- The state after some reads that leave the next record alone. -/
def OnlyRead (s m : HmcThread) : Prop :=
  ∃ pos buffer index indexMax exhausted ended, m =
    { s with
      pos := pos, buffer := buffer, bufferIndex := index, bufferIndexMax := indexMax
      bufferExhausted := exhausted, traceEnded := ended }

/-- Two readings compose. -/
theorem OnlyRead.trans {s m m' : HmcThread} (h : OnlyRead s m) (h' : OnlyRead m m') :
    OnlyRead s m' := by
  obtain ⟨_, _, _, _, _, _, rfl⟩ := h
  obtain ⟨_, _, _, _, _, _, rfl⟩ := h'
  exact ⟨_, _, _, _, _, _, rfl⟩

/-- Reading into the current record does nothing but read. -/
theorem onlyRead_readCur (k : HmcKnobs) (s : HmcThread) : OnlyRead s (s.readCur k).2.2 := by
  obtain ⟨_, _, _, _, _, _, _, heq⟩ := readTrace_fields k.toTraceKnobs s.toTraceThread
  unfold HmcThread.readCur
  dsimp only
  rw [heq]
  exact ⟨_, _, _, _, _, _, rfl⟩

/-- The records ahead do not depend on the next record. -/
theorem Ahead.of_next {ρ : Type} {k : TraceKnobs ρ} {s : TraceThread ρ} {l : List ρ} (r : ρ)
    (h : Ahead k s l) : Ahead k { s with next := r } l := by
  obtain ⟨t, c, hreading, hle, heq⟩ := h.reading
  exact ⟨h.ended, t, c,
    ⟨hreading.start, hreading.short, hreading.whole, hreading.index, hreading.fresh,
      hreading.loaded⟩, hle, heq⟩

/-- The search for the return among the records ahead. -/
theorem skipSpan_spec (lines : List HmcInst) (t : HmcInfo) (inst : HmcInst) (hcnt : inst.cnt = 1)
    (pc : Addr) {l : List TraceInfoCpu} {n : ℕ} (hn : l.length < n) (v : Addr) {s : HmcThread}
    (h : Ahead k.toTraceKnobs s.toTraceThread l) (hne : s.file ≠ []) :
    ∃ r m, HmcThread.skipSpan k t inst pc n v s = some (r, m) ∧ OnlyRead s m ∧
      ((hmcRules lines).closing inst l = [] → r.1 = false ∧ m.traceEnded = true) ∧
      ∀ y rest, (hmcRules lines).closing inst l = y :: rest →
        r = (true, ((hmcRules lines).inside inst l ++ [y]).foldl (HmcThread.targetVaddr inst) v,
          y) ∧ Ahead k.toTraceKnobs m.toTraceThread rest := by
  induction l generalizing n v s with
  | nil =>
    obtain ⟨n, rfl⟩ := Nat.exists_eq_succ_of_ne_zero (Nat.ne_of_gt hn)
    obtain ⟨hread, hended⟩ := h.read_nil hne
    refine ⟨((s.readCur k).1, v, (s.readCur k).2.1), (s.readCur k).2.2, ?_,
      onlyRead_readCur k s, fun _ => ⟨hread, hended⟩, fun y rest hy => ?_⟩
    · rw [HmcThread.skipSpan]
      exact if_pos hended
    · simp [SpanRules.closing] at hy
  | cons x l ih =>
    obtain ⟨n, rfl⟩ := Nat.exists_eq_succ_of_ne_zero (Nat.ne_of_gt (Nat.zero_lt_of_lt hn))
    obtain ⟨hread, hnext, hahead⟩ := h.read
    have hcur : (s.readCur k).2.1 = x := hnext
    have hone : (s.readCur k).1 = true := hread
    have hended : (s.readCur k).2.2.traceEnded = false := hahead.ended
    have honly := onlyRead_readCur k s
    have hahead' : Ahead k.toTraceKnobs (s.readCur k).2.2.toTraceThread l := hahead.of_next s.next
    have hfile : (s.readCur k).2.2.file = s.file := readTrace_file k.toTraceKnobs s.toTraceThread
    have hstep : HmcThread.skipSpan k t inst pc (n + 1) v s =
        if HmcThread.isReturn t inst pc x then
          some ((true, HmcThread.targetVaddr inst v x, x), (s.readCur k).2.2)
        else HmcThread.skipSpan k t inst pc n (HmcThread.targetVaddr inst v x)
          (s.readCur k).2.2 := by
      rw [HmcThread.skipSpan]
      simp only [hended, hcur, hone, Bool.false_eq_true, if_false]
    have hreturn : HmcThread.isReturn t inst pc x = (hmcRules lines).closes inst x := by
      rw [HmcThread.isReturn, if_neg (by omega)]
      rfl
    rw [hstep, hreturn]
    cases hcloses : (hmcRules lines).closes inst x with
    | true =>
      refine ⟨_, _, if_pos rfl, honly, fun hnil => ?_, fun y rest hy => ?_⟩
      · simp [SpanRules.closing, hcloses] at hnil
      · simp only [SpanRules.closing, SpanRules.inside, List.dropWhile_cons, List.takeWhile_cons,
          hcloses, Bool.not_true, Bool.false_eq_true, if_false, List.cons.injEq] at hy ⊢
        obtain ⟨rfl, rfl⟩ := hy
        exact ⟨rfl, hahead'⟩
    | false =>
      obtain ⟨r, m, heq, hm, hnil, hcons⟩ := ih (n := n) (Nat.lt_of_succ_lt_succ hn)
        (HmcThread.targetVaddr inst v x) hahead' (hfile ▸ hne)
      have hclosing : (hmcRules lines).closing inst (x :: l) = (hmcRules lines).closing inst l := by
        simp [SpanRules.closing, hcloses]
      have hinside : (hmcRules lines).inside inst (x :: l) =
          x :: (hmcRules lines).inside inst l := by
        simp [SpanRules.inside, hcloses]
      refine ⟨r, m, ?_, honly.trans hm, ?_, ?_⟩
      · rw [if_neg Bool.false_ne_true, heq]
      · rw [hclosing]
        exact hnil
      · rw [hclosing, hinside]
        exact hcons

/-- There are no more records ahead than the file has. -/
theorem Ahead.length_le {ρ : Type} {k : TraceKnobs ρ} {s : TraceThread ρ} {l : List ρ}
    (h : Ahead k s l) : l.length ≤ s.file.length := by
  obtain ⟨t, -, -, -, rfl⟩ := h.reading
  have hseen : (seenRecords k s.file).length ≤ s.file.length := by
    unfold seenRecords
    split
    · rw [List.length_tail]
      omega
    · rw [List.length_dropLast, List.length_tail]
      omega
  rw [List.length_drop]
  omega

/-- The reader may read ahead behind so many conversions. -/
def goesOn (k : HmcKnobs) (j : ℕ) : Bool := decide (j + k.instExtra j < k.maxInsts)

/-- What the reader makes of a span: it takes the address of the return into account as well. -/
def madeWithReturn (inst : HmcInst) (span : List TraceInfoCpu) (y : TraceInfoCpu) : HmcItem :=
  .hmc inst.callerPc (hmcString2Type inst.name) (lastLoadAddr inst (span ++ [y]))

/-- What is still to be delivered behind the instruction at hand. -/
def upcoming (k : HmcKnobs) (j : ℕ) : Option TraceInfoCpu → List TraceInfoCpu → List HmcItem
  | none, rs => (hmcRules k.lines).onePass madeWithReturn (goesOn k) j rs
  | some y, rs =>
    if goesOn k j = false then []
    else .raw y :: (hmcRules k.lines).onePass madeWithReturn (goesOn k) (j + 1) rs

/-- What the reader has cached. -/
structure Cached (s : HmcThread) (cached : Option TraceInfoCpu) : Prop where
  flag : s.hasCachedInst = cached.isSome
  inst : ∀ y, cached = some y → s.cachedInst = y

/-- The thread is about to convert the record that stands for `i`. -/
structure HmcAt (k : HmcKnobs) (s : HmcThread) (i : HmcItem) (cached : Option TraceInfoCpu)
    (rs : List TraceInfoCpu) : Prop where
  file : s.file ≠ []
  bom : s.bom = true
  running : s.fetchEnded = false
  fetched : s.instFetched = s.converted.length
  types : s.hmcTypes.length = s.converted.length
  prev : Delivers (s.prev, s.prevHmcType) i
  ahead : Ahead k.toTraceKnobs s.toTraceThread rs
  cached : Cached s cached

/-- Reading ahead changes the reader, the cache and the next record. -/
def OnlyAhead (s m : HmcThread) : Prop :=
  ∃ pos buffer index indexMax exhausted next ended cachedInst hasCachedInst nextHmcType, m =
    { s with
      pos := pos, buffer := buffer, bufferIndex := index, bufferIndexMax := indexMax
      bufferExhausted := exhausted, next := next, traceEnded := ended, cachedInst := cachedInst
      hasCachedInst := hasCachedInst, nextHmcType := nextHmcType }

/-- What reading ahead finds: the end, or the record that stands for the next item. -/
def FoundNext (k : HmcKnobs) (items : List HmcItem) (j : ℕ) (r : Bool × HmcThread) : Prop :=
  (items = [] ∧ r.2.traceEnded = true) ∨
    ∃ i cached rs, items = i :: upcoming k (j + 1) cached rs ∧ r.1 = true ∧
      Delivers (r.2.next, r.2.nextHmcType) i ∧
      Ahead k.toTraceKnobs r.2.toTraceThread rs ∧ Cached r.2 cached

/-- What becomes of a record that was read: it stays, or it is replaced with its span. -/
def replaceRead (k : HmcKnobs) (j : ℕ) (one : Bool) (m : HmcThread) : Bool × HmcThread :=
  match (HmcInfo.read k.lines).info m.next.instructionAddr with
  | none => (one, m)
  | some inst =>
    if m.traceEnded then (one, m)
    else
      match HmcThread.skipSpan k (HmcInfo.read k.lines) inst m.next.instructionAddr
          (m.file.length + 1) (HmcThread.targetVaddr inst 0 m.next) m with
      | none => (one, m)
      | some (found, m') =>
        if m'.traceEnded then (found.1, m')
        else
          (found.1, { m' with
            next := generateHmcInst inst.callerPc found.2.1 (k.uninit j)
            nextHmcType := hmcString2Type inst.name
            cachedInst := found.2.2
            hasCachedInst := true })

/-- The next record is read, and replaced where it opens a span. -/
theorem readNext_spec (hnodup : (k.lines.map HmcInst.callerPc).Nodup) {s : HmcThread} {i : HmcItem}
    {rs : List TraceInfoCpu} (hs : HmcAt k s i none rs)
    (hgo : goesOn k s.converted.length = true) :
    OnlyAhead s (s.readNext k).2 ∧
      FoundNext k (upcoming k s.converted.length none rs) s.converted.length (s.readNext k) := by
  obtain ⟨pos, buffer, index, indexMax, exhausted, next, ended, hfields⟩ :=
    readTrace_fields k.toTraceKnobs s.toTraceThread
  set m : HmcThread := { s with
    toTraceThread := (s.toTraceThread.readTrace k.toTraceKnobs).2, nextHmcType := .none } with hm
  have honly : OnlyAhead s m := by
    rw [hm, hfields]
    exact ⟨_, _, _, _, _, _, _, _, _, _, rfl⟩
  have hnotcached : Cached m none := ⟨hs.cached.flag, fun y hy => absurd hy (by simp)⟩
  have hread : s.readNext k = replaceRead k s.converted.length
      (s.toTraceThread.readTrace k.toTraceKnobs).1 m := rfl
  unfold replaceRead at hread
  cases rs with
  | nil =>
    -- the trace ends, and a caller there is not looked at
    have hended : m.traceEnded = true := (hs.ahead.read_nil hs.file).2
    have hsame : (s.readNext k).2 = m := by
      rw [hread]
      split
      · rfl
      · rw [if_pos hended]
    rw [hsame]
    exact ⟨honly, Or.inl ⟨by rw [upcoming, SpanRules.onePass], by rw [hsame]; exact hended⟩⟩
  | cons x l =>
    obtain ⟨hone, hnext, hahead⟩ := hs.ahead.read
    have hnext' : m.next = x := hnext
    have hended : m.traceEnded = false := hahead.ended
    rw [hread, hnext', read_info hnodup]
    cases hopens : k.lines.find? fun inst => inst.callerPc = x.instructionAddr with
    | none =>
      refine ⟨honly, Or.inr ⟨.raw x, none, l, ?_, hone, ?_, hahead, hnotcached⟩⟩
      · rw [upcoming, SpanRules.onePass_raw hgo hopens]
        rfl
      · exact Prod.ext hnext' rfl
    | some c =>
      have hfuel : l.length < m.file.length + 1 := Nat.lt_succ_of_le hahead.length_le
      have hfile : m.file ≠ [] := by
        have : m.file = s.file := readTrace_file k.toTraceKnobs s.toTraceThread
        rw [this]
        exact hs.file
      obtain ⟨r, m', heq, hm', hnil, hcons⟩ := skipSpan_spec k.lines (HmcInfo.read k.lines)
        { c with cnt := 1 } rfl x.instructionAddr hfuel
        (HmcThread.targetVaddr { c with cnt := 1 } 0 x) (s := m) hahead hfile
      have honly' : OnlyAhead s m' := by
        obtain ⟨_, _, _, _, _, _, _, _, _, _, hm₁⟩ := honly
        obtain ⟨_, _, _, _, _, _, hm₂⟩ := hm'
        rw [hm₂, hm₁]
        exact ⟨_, _, _, _, _, _, _, _, _, _, rfl⟩
      simp only [Option.map_some, hended, Bool.false_eq_true, if_false, heq]
      cases hclosing : (hmcRules k.lines).closing c l with
      | nil =>
        obtain ⟨-, hended'⟩ := hnil hclosing
        rw [if_pos hended']
        refine ⟨honly', Or.inl ⟨?_, hended'⟩⟩
        rw [upcoming, SpanRules.onePass_unclosed hopens hclosing]
      | cons y rest =>
        obtain ⟨rfl, hahead'⟩ := hcons y rest hclosing
        rw [if_neg (by simp [hahead'.ended])]
        refine ⟨?_, Or.inr ⟨madeWithReturn c (x :: (hmcRules k.lines).inside c l) y, some y, rest,
          ?_, rfl, ⟨k.uninit s.converted.length, ?_⟩, hahead'.of_next _, ⟨rfl, fun z hz => ?_⟩⟩⟩
        · obtain ⟨_, _, _, _, _, _, _, _, _, _, hm₁⟩ := honly'
          rw [hm₁]
          exact ⟨_, _, _, _, _, _, _, _, _, _, rfl⟩
        · rw [upcoming, SpanRules.onePass_span hgo hopens hclosing]
          rfl
        · have hvaddr := foldl_targetVaddr c (x :: ((hmcRules k.lines).inside c l ++ [y]))
          rw [List.foldl_cons] at hvaddr
          rw [List.cons_append, ← hvaddr]
          rfl
        · exact Option.some.inj hz

/-- The next record comes from the trace or from the cache, unless enough have been fetched. -/
theorem readAhead_spec (hnodup : (k.lines.map HmcInst.callerPc).Nodup) {s : HmcThread}
    {i : HmcItem} {cached : Option TraceInfoCpu} {rs : List TraceInfoCpu}
    (hs : HmcAt k s i cached rs) :
    OnlyAhead s (s.readAhead k).2 ∧
      FoundNext k (upcoming k s.converted.length cached rs) s.converted.length
        (s.readAhead k) := by
  unfold HmcThread.readAhead
  cases hgo : goesOn k s.converted.length with
  | false =>
    rw [if_neg (by rw [hs.fetched]; exact of_decide_eq_false hgo)]
    refine ⟨⟨_, _, _, _, _, _, _, _, _, _, rfl⟩, Or.inl ⟨?_, rfl⟩⟩
    cases cached with
    | none => exact SpanRules.onePass_stopped hgo rs
    | some y => exact if_pos hgo
  | true =>
    rw [if_pos (by rw [hs.fetched]; exact of_decide_eq_true hgo)]
    cases cached with
    | none =>
      have hflag : s.hasCachedInst = false := hs.cached.flag
      rw [if_pos hflag]
      exact readNext_spec hnodup hs hgo
    | some y =>
      rw [if_neg (by simp [hs.cached.flag])]
      refine ⟨⟨_, _, _, _, _, _, _, _, _, _, rfl⟩, Or.inr ⟨.raw y, none, rs, ?_, rfl, ?_,
        hs.ahead.of_next _, ⟨rfl, fun z hz => absurd hz (by simp)⟩⟩⟩
      · simp [upcoming, hgo]
      · exact Prod.ext (hs.cached.inst y rfl) rfl

/-! ## One instruction -/

/-- What is handed to the decoder grows by the record at hand. -/
theorem delivered_convertPrev {s m : HmcThread} (hm : OnlyAhead s m)
    (htypes : s.hmcTypes.length = s.converted.length) (read : Bool) :
    (m.convertPrev k read).delivered = s.delivered ++ [(s.prev, s.prevHmcType)] := by
  obtain ⟨_, _, _, _, _, _, _, _, _, _, rfl⟩ := hm
  unfold HmcThread.delivered HmcThread.convertPrev TraceThread.convertPrev
  dsimp only
  rw [List.map_append, List.zip_append (by rw [List.length_map, htypes])]
  rfl

/-- The rest of the uops of an instruction. -/
theorem hmc_sendRest (k : HmcKnobs) (m : ℕ) {s : HmcThread}
    (hnum : s.numUop = s.numSendingUop + m + 1) : ∃ sent,
    (HmcThread.getUop k)^[m] { s with toTraceThread := s.toTraceThread.sendUop } =
      { s with
        numSendingUop := s.numUop, bom := true, fetchEnded := s.traceEnded, sent := sent } := by
  induction m generalizing s with
  | zero =>
    refine ⟨s.sent ++ [⟨s.converted.length, s.bom, true, s.traceEnded⟩], ?_⟩
    simp [TraceThread.sendUop, hnum]
  | succ m ih =>
    have heom : ¬ s.numSendingUop + 1 = s.numUop := by omega
    have hsend : s.toTraceThread.sendUop = { s.toTraceThread with
        numSendingUop := s.numSendingUop + 1
        bom := false
        fetchEnded := false
        sent := s.sent ++ [⟨s.converted.length, s.bom, false, false⟩] } := by
      simp [TraceThread.sendUop, heom]
    have hstep : HmcThread.getUop k { s with toTraceThread := s.toTraceThread.sendUop } =
        { s with toTraceThread := s.toTraceThread.sendUop.sendUop } := by
      rw [HmcThread.getUop, hsend]
      simp
    have hnum' : s.toTraceThread.sendUop.numUop =
        s.toTraceThread.sendUop.numSendingUop + m + 1 := by
      rw [hsend]
      change s.numUop = s.numSendingUop + 1 + m + 1
      omega
    obtain ⟨sent, heq⟩ := ih (s := { s with toTraceThread := s.toTraceThread.sendUop }) hnum'
    refine ⟨sent, ?_⟩
    rw [Function.iterate_succ_apply, hstep, heq, hsend]

/-- One instruction is converted and its uops are sent. -/
theorem hmc_sendInst (k : HmcKnobs) {s : HmcThread} (hbom : s.bom = true)
    (hfetch : s.fetchEnded = false) : ∃ m sent,
    (HmcThread.getUop k)^[m] s =
      { s.nextInst k with
        numSendingUop := (s.nextInst k).numUop, bom := true
        fetchEnded := (s.nextInst k).traceEnded, sent := sent } := by
  obtain ⟨sent, heq⟩ := hmc_sendRest k (k.extraUops (s.nextInst k).converted)
    (s := s.nextInst k) (by
      change _ + 1 = 0 + _ + 1
      rw [Nat.zero_add]
      rfl)
  have hfirst : HmcThread.getUop k s =
      { s.nextInst k with toTraceThread := (s.nextInst k).toTraceThread.sendUop } := by
    rw [HmcThread.getUop, if_neg (by simp [hfetch]), if_pos hbom]
  exact ⟨k.extraUops (s.nextInst k).converted + 1, sent, by
    rw [Function.iterate_succ_apply, hfirst, heq]⟩

/-- An instruction behind which there is none ends the fetch. -/
theorem HmcAt.last {s : HmcThread} {i : HmcItem} {cached : Option TraceInfoCpu}
    {rs : List TraceInfoCpu} (hs : HmcAt k s i cached rs)
    (honly : OnlyAhead s (s.readAhead k).2) (hended : (s.readAhead k).2.traceEnded = true) :
    ∃ m, ((HmcThread.getUop k)^[m] s).fetchEnded = true ∧
      ((HmcThread.getUop k)^[m] s).delivered = s.delivered ++ [(s.prev, s.prevHmcType)] := by
  obtain ⟨m, sent, heq⟩ := hmc_sendInst k hs.bom hs.running
  refine ⟨m, ?_, ?_⟩
  · rw [heq]
    exact hended
  · rw [heq]
    exact delivered_convertPrev (k := k) honly hs.types (s.readAhead k).1

/-- An instruction behind which there is another. -/
theorem HmcAt.next {s : HmcThread} {i i' : HmcItem} {cached cached' : Option TraceInfoCpu}
    {rs rs' : List TraceInfoCpu} (hs : HmcAt k s i cached rs)
    (honly : OnlyAhead s (s.readAhead k).2) (hread : (s.readAhead k).1 = true)
    (hnext : Delivers ((s.readAhead k).2.next, (s.readAhead k).2.nextHmcType) i')
    (hahead : Ahead k.toTraceKnobs (s.readAhead k).2.toTraceThread rs')
    (hcached : Cached (s.readAhead k).2 cached') :
    ∃ m, HmcAt k ((HmcThread.getUop k)^[m] s) i' cached' rs' ∧
      ((HmcThread.getUop k)^[m] s).converted.length = s.converted.length + 1 ∧
      ((HmcThread.getUop k)^[m] s).delivered = s.delivered ++ [(s.prev, s.prevHmcType)] := by
  obtain ⟨m, sent, heq⟩ := hmc_sendInst k hs.bom hs.running
  have hdelivered := delivered_convertPrev (k := k) honly hs.types (s.readAhead k).1
  have hended := hahead.ended
  obtain ⟨t, c, hreading, hle, hdrop⟩ := hahead.reading
  refine ⟨m, ?_, ?_, ?_⟩
  · rw [heq]
    obtain ⟨_, _, _, _, _, _, _, _, _, _, hfields⟩ := honly
    refine ⟨?_, rfl, hended, ?_, ?_, hnext, ⟨hended, t, c, ⟨hreading.start, hreading.short,
      hreading.whole, hreading.index, hreading.fresh, hreading.loaded⟩, hle, hdrop⟩,
      ⟨hcached.flag, hcached.inst⟩⟩
    · change (s.readAhead k).2.file ≠ []
      rw [hfields]
      exact hs.file
    · change (if (s.readAhead k).1 = true then (s.readAhead k).2.instFetched + 1 else _) =
        ((s.readAhead k).2.converted ++ [_]).length
      rw [if_pos hread, hfields, List.length_append, List.length_singleton]
      exact congrArg (· + 1) hs.fetched
    · change ((s.readAhead k).2.hmcTypes ++ [_]).length =
        ((s.readAhead k).2.converted ++ [_]).length
      rw [hfields, List.length_append, List.length_append, List.length_singleton,
        List.length_singleton]
      exact congrArg (· + 1) hs.types
  · rw [heq]
    change ((s.readAhead k).2.converted ++ [_]).length = _
    obtain ⟨_, _, _, _, _, _, _, _, _, _, hfields⟩ := honly
    rw [hfields, List.length_append, List.length_singleton]
  · rw [heq]
    exact hdelivered

/-! ## The whole trace -/

/-- From any instruction on, the calls deliver it and what is upcoming. -/
theorem hmc_delivers (hnodup : (k.lines.map HmcInst.callerPc).Nodup) (items : List HmcItem)
    {s : HmcThread} {i : HmcItem} {cached : Option TraceInfoCpu} {rs : List TraceInfoCpu}
    (hs : HmcAt k s i cached rs) (hitems : upcoming k s.converted.length cached rs = items) :
    ∃ m D, ((HmcThread.getUop k)^[m] s).fetchEnded = true ∧
      ((HmcThread.getUop k)^[m] s).delivered = s.delivered ++ D ∧
      List.Forall₂ Delivers D (i :: items) := by
  induction items generalizing s i cached rs with
  | nil =>
    obtain ⟨honly, hfound⟩ := readAhead_spec hnodup hs
    rw [hitems] at hfound
    rcases hfound with ⟨-, hended⟩ | ⟨i', cached', rs', hcons, -⟩
    · obtain ⟨m, hm, hdelivered⟩ := hs.last honly hended
      exact ⟨m, _, hm, hdelivered, List.Forall₂.cons hs.prev List.Forall₂.nil⟩
    · cases hcons
  | cons i' items ih =>
    obtain ⟨honly, hfound⟩ := readAhead_spec hnodup hs
    rw [hitems] at hfound
    rcases hfound with ⟨hnil, -⟩ | ⟨i'', cached', rs', hcons, hread, hnext, hahead, hcached⟩
    · cases hnil
    · rw [List.cons.injEq] at hcons
      obtain ⟨rfl, hrest⟩ := hcons
      obtain ⟨m, hat, hlen, hdelivered⟩ := hs.next honly hread hnext hahead hcached
      obtain ⟨m', D, hended, hD, hforall⟩ := ih hat (by rw [hlen]; exact hrest.symm)
      refine ⟨m' + m, (s.prev, s.prevHmcType) :: D, ?_, ?_, List.Forall₂.cons hs.prev hforall⟩
      · rw [Function.iterate_add_apply]
        exact hended
      · rw [Function.iterate_add_apply, hD, hdelivered, List.append_assoc]
        rfl

/-- After the set-up the thread stands before the first record, with the others ahead. -/
theorem hmcAt_setup (k : HmcKnobs) (hB : 0 < k.bufferSize) (r : TraceInfoCpu)
    (rs : List TraceInfoCpu) (junk : TraceInfoCpu) :
    HmcAt k (HmcThread.setup (r :: rs) junk) (.raw r) none
      (seenRecords k.toTraceKnobs (r :: rs)) where
  file := List.cons_ne_nil r rs
  bom := rfl
  running := rfl
  fetched := rfl
  types := rfl
  prev := rfl
  ahead := ahead_setup (k := k.toTraceKnobs) hB (r :: rs) junk (List.cons_ne_nil r rs)
  cached := ⟨rfl, fun _ hy => absurd hy (by simp)⟩

/-- A thread whose fetch has ended stays as it is. -/
theorem iterate_hmc_of_ended {s : HmcThread} (h : s.fetchEnded = true) (m : ℕ) :
    (HmcThread.getUop k)^[m] s = s := by
  induction m with
  | zero => rfl
  | succ m ih => rw [Function.iterate_succ_apply', ih, HmcThread.getUop, if_pos h]

/-- Two calls at which the fetch has ended leave the same state. -/
theorem hmc_ended_unique {s : HmcThread} {m m' : ℕ}
    (h : ((HmcThread.getUop k)^[m] s).fetchEnded = true)
    (h' : ((HmcThread.getUop k)^[m'] s).fetchEnded = true) :
    (HmcThread.getUop k)^[m] s = (HmcThread.getUop k)^[m'] s := by
  rcases Nat.le_total m m' with hle | hle
  · obtain ⟨d, rfl⟩ := Nat.exists_eq_add_of_le' hle
    rw [Function.iterate_add_apply, iterate_hmc_of_ended h]
  · obtain ⟨d, rfl⟩ := Nat.exists_eq_add_of_le' hle
    rw [Function.iterate_add_apply, iterate_hmc_of_ended h']

/-- With a type for every entry, a record stands for one item at most. -/
theorem Delivers.unique {d : TraceInfoCpu × HmcType} {i i' : HmcItem} (h : Delivers d i)
    (h' : Delivers d i') (hi : ∀ pc type v, i = .hmc pc type v → type ≠ .none)
    (hi' : ∀ pc type v, i' = .hmc pc type v → type ≠ .none) : i = i' := by
  cases i with
  | raw r =>
    cases i' with
    | raw r' =>
      have hr : r = r' := (Prod.ext_iff.mp (h.symm.trans h')).1
      rw [hr]
    | hmc pc type v =>
      obtain ⟨_, h'⟩ := h'
      exact absurd (Prod.ext_iff.mp (h.symm.trans h')).2.symm (hi' _ _ _ rfl)
  | hmc pc type v =>
    obtain ⟨_, h⟩ := h
    cases i' with
    | raw r => exact absurd (Prod.ext_iff.mp (h.symm.trans h')).2 (hi _ _ _ rfl)
    | hmc pc' type' v' =>
      obtain ⟨_, h'⟩ := h'
      obtain ⟨hinst, htype⟩ := Prod.ext_iff.mp (h.symm.trans h')
      have hpc : pc = pc' := congrArg TraceInfoCpu.instructionAddr hinst
      have hv : v = v' := congrArg TraceInfoCpu.stVaddr hinst
      have htype : type = type' := htype
      rw [hpc, hv, htype]

/-- Every generated instruction among the items has a type. -/
def Typed (items : List HmcItem) : Prop :=
  ∀ i ∈ items, ∀ pc type v, i = .hmc pc type v → type ≠ .none

/-- What delivers the uops is determined by their records and kinds. -/
theorem forall₂_delivers_unique {D : List (TraceInfoCpu × HmcType)} {l l' : List HmcItem}
    (h : List.Forall₂ Delivers D l) (h' : List.Forall₂ Delivers D l') (hl : Typed l)
    (hl' : Typed l') : l = l' := by
  induction h generalizing l' with
  | nil =>
    cases h'
    rfl
  | cons hd _ ih =>
    cases h' with
    | cons hd' hrest' =>
      rw [hd.unique hd' (hl _ (List.mem_cons_self ..)) (hl' _ (List.mem_cons_self ..)),
        ih hrest' (fun i hi => hl i (List.mem_cons_of_mem _ hi))
          (fun i hi => hl' i (List.mem_cons_of_mem _ hi))]

/-- The names of the info file are names of HMC instructions, which the reader asserts. -/
def NamesKnown (lines : List HmcInst) : Prop :=
  ∀ inst ∈ lines, hmcString2Type inst.name ≠ .none

/-- The substitution by the rules of the table gives items of their own kinds. -/
theorem typed_substitute {lines : List HmcInst} (hnames : NamesKnown lines)
    (file : List TraceInfoCpu) : Typed ((hmcRules lines).substitute file) := by
  rintro i hi pc type v rfl
  rcases (hmcRules lines).mem_substitute hi with ⟨x, hraw⟩ | ⟨x, c, span, hopens, hmade⟩
  · cases hraw
  · cases hmade
    exact hnames c (List.mem_of_find?_eq_some hopens)

/-- One pass of the rules gives items of their own kinds. -/
theorem typed_onePass {lines : List HmcInst} (hnames : NamesKnown lines) (go : ℕ → Bool) (j : ℕ)
    (l : List TraceInfoCpu) : Typed ((hmcRules lines).onePass madeWithReturn go j l) := by
  rintro i hi pc type v rfl
  rcases SpanRules.mem_onePass hi with ⟨x, hraw⟩ | ⟨x, c, span, y, hopens, hmade⟩
  · cases hraw
  · cases hmade
    exact hnames c (List.mem_of_find?_eq_some hopens)

/-- The fetch ends, with the first record and what one pass makes of the records seen. -/
theorem hmc_delivered (hnodup : (k.lines.map HmcInst.callerPc).Nodup) (hB : 0 < k.bufferSize)
    (r : TraceInfoCpu) (rs : List TraceInfoCpu) (junk : TraceInfoCpu) :
    ∃ m, ((HmcThread.getUop k)^[m] (HmcThread.setup (r :: rs) junk)).fetchEnded = true ∧
      List.Forall₂ Delivers ((HmcThread.getUop k)^[m] (HmcThread.setup (r :: rs) junk)).delivered
        (.raw r :: (hmcRules k.lines).onePass madeWithReturn (goesOn k) 0
          (seenRecords k.toTraceKnobs (r :: rs))) := by
  obtain ⟨m, D, hended, hD, hforall⟩ := hmc_delivers hnodup _ (hmcAt_setup k hB r rs junk) rfl
  refine ⟨m, hended, ?_⟩
  rw [hD]
  exact hforall

/-- The spans of a trace are where the reader finds them: the records behind the first one fill
whole chunks, the first record opens no span, behind it every caller returns to a record that
opens none and does not set the target address, and enough instructions may be fetched. -/
structure SpansReadable (k : HmcKnobs) (file : List TraceInfoCpu) : Prop where
  chunks : (file.length - 1) % k.bufferSize = 0
  first : ¬ (hmcRules k.lines).StartsSpan file
  apart : (hmcRules k.lines).Apart madeWithReturn file.tail
  fetched : ∀ j, j + 1 < ((hmcRules k.lines).substitute file).length →
    j + k.instExtra j < k.maxInsts

/-- The first record apart, the records seen and those not seen are the trace. -/
theorem seenRecords_append (k : TraceKnobs TraceInfoCpu) (r : TraceInfoCpu)
    (rs : List TraceInfoCpu) : ∃ tail, rs = seenRecords k (r :: rs) ++ tail ∧
      (tail = [] ↔ ((r :: rs).length - 1) % k.bufferSize = 0) := by
  unfold seenRecords
  split
  case isTrue hz => exact ⟨[], by simp, iff_of_true rfl hz⟩
  case isFalse hz =>
    have hne : rs ≠ [] := by
      rintro rfl
      exact hz (Nat.zero_mod _)
    exact ⟨[rs.getLast hne], (List.dropLast_append_getLast hne).symm, iff_of_false (by simp) hz⟩

/-- A record that is passed on is no call that is made. -/
theorem raw_ne_made (lines : List HmcInst) (x : TraceInfoCpu) (c : HmcInst)
    (l : List TraceInfoCpu) : (hmcRules lines).raw x ≠ (hmcRules lines).made c l := by
  intro h
  cases h

/-- For a table with one entry for each caller, the decoder gets the trace with every span
replaced exactly if the spans are where the reader finds them. -/
theorem hmc_substitution_iff (k : HmcKnobs) (hB : 0 < k.bufferSize)
    (hnodup : (k.lines.map HmcInst.callerPc).Nodup) (hnames : NamesKnown k.lines)
    (file : List TraceInfoCpu) (hne : file ≠ []) (junk : TraceInfoCpu) :
    (∃ m, Substituted k file ((HmcThread.getUop k)^[m] (HmcThread.setup file junk))) ↔
      SpansReadable k file := by
  obtain ⟨r, rs, rfl⟩ := List.exists_cons_of_ne_nil hne
  obtain ⟨m, hended, hitems⟩ := hmc_delivered hnodup hB r rs junk
  have hdone : (∃ m, Substituted k (r :: rs)
      ((HmcThread.getUop k)^[m] (HmcThread.setup (r :: rs) junk))) ↔
      HmcItem.raw r :: (hmcRules k.lines).onePass madeWithReturn (goesOn k) 0
        (seenRecords k.toTraceKnobs (r :: rs)) = (hmcRules k.lines).substitute (r :: rs) := by
    constructor
    · rintro ⟨m', hm'⟩
      have hsame := hm'.items
      rw [hmc_ended_unique hm'.ended hended] at hsame
      refine forall₂_delivers_unique hitems hsame ?_ (typed_substitute hnames _)
      intro i hi
      rcases List.mem_cons.mp hi with rfl | hi
      · intro pc type v heq
        cases heq
      · exact typed_onePass hnames _ _ _ i hi
    · intro heq
      exact ⟨m, hended, heq ▸ hitems⟩
  obtain ⟨tail, hsplit, htail⟩ := seenRecords_append k.toTraceKnobs r rs
  have hpass := SpanRules.onePass_eq_substitute_iff (R := hmcRules k.lines)
    madeWithReturn (goesOn k) (raw_ne_made k.lines) tail _
    (seenRecords k.toTraceKnobs (r :: rs)) le_rfl 0
  rw [← hsplit, htail] at hpass
  rw [hdone]
  constructor
  · intro heq
    have hfirst := SpanRules.substitute_head_raw (R := hmcRules k.lines)
      (raw_ne_made k.lines) heq
    rw [(hmcRules k.lines).substitute_raw hfirst, List.cons.injEq] at heq
    obtain ⟨hchunks, hapart, hgo⟩ := hpass.mp heq.2
    obtain rfl : tail = [] := htail.mpr hchunks
    rw [List.append_nil] at hsplit
    refine ⟨hchunks, hfirst, by rw [List.tail_cons, hsplit]; exact hapart, fun j hj => ?_⟩
    rw [(hmcRules k.lines).substitute_raw hfirst, List.length_cons] at hj
    have := hgo j (by rw [← hsplit]; omega)
    rw [Nat.zero_add] at this
    exact of_decide_eq_true this
  · rintro ⟨hchunks, hfirst, hapart, hfetched⟩
    obtain rfl : tail = [] := htail.mpr hchunks
    rw [List.append_nil] at hsplit
    rw [(hmcRules k.lines).substitute_raw hfirst]
    refine congrArg _ (hpass.mpr ⟨hchunks, ?_, fun i hi => ?_⟩)
    · rw [← hsplit]
      exact hapart
    · rw [← hsplit] at hi
      rw [Nat.zero_add]
      refine decide_eq_true (hfetched i ?_)
      rw [(hmcRules k.lines).substitute_raw hfirst, List.length_cons]
      omega

/-- A record at an address with a load address, all else zero. -/
def recordAt (addr ldVaddr : Addr) : TraceInfoCpu where
  numReadRegs := 0
  numDestRegs := 0
  src := []
  dst := []
  cfType := 0
  hasImmediate := false
  opcode := 0
  hasSt := false
  isFp := false
  writeFlg := false
  numLd := 1
  size := 4
  ldVaddr1 := ldVaddr
  ldVaddr2 := 0
  stVaddr := 0
  instructionAddr := addr
  branchTarget := 0
  memReadSize := 4
  memWriteSize := 0
  repDir := false
  actuallyTaken := false

/-- One entry, from address 10 to 12 with the target at 11, and one uop a record. -/
def oneEntryKnobs (bufferSize : ℕ) : HmcKnobs where
  bufferSize := bufferSize
  maxInsts := 1000
  extraUops := fun _ => 0
  lines := [⟨10, 0, 12, 11, "HMC_ADD_16B", 0⟩]
  instExtra := fun _ => 0
  uninit := fun _ => recordAt 0 0

/-- A span behind the first record, with a buffer of one. -/
theorem hmc_substitution_iff_one_span :
    ∃ m, Substituted (oneEntryKnobs 1)
      [recordAt 9 0, recordAt 10 0, recordAt 11 77, recordAt 12 0]
      ((HmcThread.getUop (oneEntryKnobs 1))^[m] (HmcThread.setup
        [recordAt 9 0, recordAt 10 0, recordAt 11 77, recordAt 12 0] (recordAt 0 0))) := by
  refine (hmc_substitution_iff (oneEntryKnobs 1) (by decide) (by decide)
    (fun inst hinst => ?_) _ (by decide) _).mpr ⟨rfl, ?_, ?_, fun j hj => ?_⟩
  · obtain rfl := List.mem_singleton.mp hinst
    decide
  · rintro ⟨c, hopens, -⟩
    cases hopens
  · have hopens : (hmcRules (oneEntryKnobs 1).lines).opens (recordAt 10 0) =
        some ⟨10, 0, 12, 11, "HMC_ADD_16B", 0⟩ := rfl
    have hclosing : (hmcRules (oneEntryKnobs 1).lines).closing ⟨10, 0, 12, 11, "HMC_ADD_16B", 0⟩
        [recordAt 11 77, recordAt 12 0] = [recordAt 12 0] := rfl
    rw [List.tail_cons, SpanRules.apart_span hopens hclosing]
    refine ⟨rfl, ?_, by rw [SpanRules.Apart]; trivial⟩
    rintro ⟨c, hopens, -⟩
    cases hopens
  · have hle := (hmcRules (oneEntryKnobs 1).lines).length_substitute_le
      [recordAt 9 0, recordAt 10 0, recordAt 11 77, recordAt 12 0]
    have hlen : j + 1 < 4 := lt_of_lt_of_le hj hle
    change j + 0 < 1000
    omega

/-- A trace that begins with a caller: the caller itself is delivered. -/
theorem hmc_keeps_first_caller : ¬ ∃ m, Substituted (oneEntryKnobs 1000)
    [recordAt 10 0, recordAt 11 77, recordAt 12 0]
    ((HmcThread.getUop (oneEntryKnobs 1000))^[m] (HmcThread.setup
      [recordAt 10 0, recordAt 11 77, recordAt 12 0] (recordAt 0 0))) := by
  rintro ⟨m, hm⟩
  have hended : ((HmcThread.getUop (oneEntryKnobs 1000))^[2] (HmcThread.setup
      [recordAt 10 0, recordAt 11 77, recordAt 12 0] (recordAt 0 0))).fetchEnded = true := rfl
  have hitems := hm.items
  rw [hmc_ended_unique hm.ended hended] at hitems
  have htwo : ((HmcThread.getUop (oneEntryKnobs 1000))^[2] (HmcThread.setup
      [recordAt 10 0, recordAt 11 77, recordAt 12 0] (recordAt 0 0))).delivered =
        [(recordAt 10 0, .none), (recordAt 11 77, .none)] := rfl
  have hopens : (hmcRules (oneEntryKnobs 1000).lines).opens (recordAt 10 0) =
      some ⟨10, 0, 12, 11, "HMC_ADD_16B", 0⟩ := rfl
  have hclosing : (hmcRules (oneEntryKnobs 1000).lines).closing
      ⟨10, 0, 12, 11, "HMC_ADD_16B", 0⟩ [recordAt 11 77, recordAt 12 0] = [recordAt 12 0] := rfl
  rw [htwo, SpanRules.substitute_span _ hopens hclosing] at hitems
  cases hitems with
  | cons hfirst _ =>
    obtain ⟨_, heq⟩ := hfirst
    cases (Prod.ext_iff.mp heq).2

end MacSim.Analysis
