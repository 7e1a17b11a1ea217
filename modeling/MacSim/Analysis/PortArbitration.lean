import MacSim.Model.MemReq

/-!
# The arbitration of ports

A port counts the calls that it has granted in the cycle of the last one, separately for reads
and writes.  The counter of one kind is only reset by the next call of that kind, so that it is
stale when the other kind looks at it in a later cycle; and the first call of a kind in a cycle
does not look at the other kind at all.
-/

set_option autoImplicit false

namespace MacSim.Analysis

open MacSim.Model

namespace CachePort

/-! ## Calls -/

inductive PortKind where
  | read
  | write
  deriving DecidableEq

/-- The kind that a call of this kind looks at. -/
def PortKind.other : PortKind → PortKind
  | .read => .write
  | .write => .read

structure PortCall where
  kind : PortKind
  cycle : Counter

def lastCycle (p : CachePort) : PortKind → Counter
  | .read => p.readLastCycle
  | .write => p.writeLastCycle

def inUse (p : CachePort) : PortKind → ℕ
  | .read => p.readPortsInUse
  | .write => p.writePortsInUse

def ports (p : CachePort) : PortKind → ℕ
  | .read => p.numReadPorts
  | .write => p.numWritePorts

/-- One call; `none` when an assertion fails. -/
def request (p : CachePort) (x : PortCall) : Option (CachePort × Bool) :=
  match x.kind with
  | .read => p.getReadPort x.cycle
  | .write => p.getWritePort x.cycle

/-- The port after a call was granted. -/
def charge (p : CachePort) (x : PortCall) (n : ℕ) : CachePort :=
  match x.kind with
  | .read => { p with readLastCycle := x.cycle, readPortsInUse := n }
  | .write => { p with writeLastCycle := x.cycle, writePortsInUse := n }

/-- What happens to a call that the other kind prevents. -/
def prevented (p : CachePort) : PortKind → Option (CachePort × Bool)
  | .read => some (p, false)
  | .write => none

variable {p p' : CachePort} {x : PortCall} {b : Bool}

/-- A charge leaves the number of ports alone. -/
@[simp] theorem ports_charge (n : ℕ) : ports (charge p x n) = ports p := by
  funext kind
  cases x with | mk k cycle => cases k <;> cases kind <;> rfl

/-- A charge leaves the arbitration rule alone. -/
@[simp] theorem writesPreventReads_charge (n : ℕ) :
    (charge p x n).writesPreventReads = p.writesPreventReads := by
  cases x with | mk k cycle => cases k <;> rfl

/-- A charge dates the ports of its own kind. -/
theorem lastCycle_charge (n : ℕ) (kind : PortKind) :
    lastCycle (charge p x n) kind = if kind = x.kind then x.cycle else lastCycle p kind := by
  cases x with | mk k cycle => cases k <;> cases kind <;> rfl

/-- A charge sets the use of the ports of its own kind. -/
theorem inUse_charge (n : ℕ) (kind : PortKind) :
    inUse (charge p x n) kind = if kind = x.kind then n else inUse p kind := by
  cases x with | mk k cycle => cases k <;> cases kind <;> rfl

/-- The two calls do the same. -/
theorem request_eq (hports : 0 < ports p x.kind) :
    request p x =
      if lastCycle p x.kind ≠ x.cycle then some (charge p x 1, true)
      else if inUse p x.kind = ports p x.kind then some (p, false)
      else if p.writesPreventReads ∧ inUse p x.kind.other ≠ 0 then prevented p x.kind
      else some (charge p x (inUse p x.kind + 1), true) := by
  obtain ⟨kind, cycle⟩ := x
  cases kind with
  | read =>
      change 0 < p.numReadPorts at hports
      unfold request CachePort.getReadPort
      dsimp only
      rw [if_pos hports]
      change _ = ite (p.readLastCycle ≠ cycle) _ (ite (p.readPortsInUse = p.numReadPorts) _
        (ite (p.writesPreventReads = true ∧ p.writePortsInUse ≠ 0) _ _))
      rw [if_congr and_comm rfl rfl]
      by_cases hlast : p.readLastCycle = cycle
      · subst hlast
        rfl
      · rw [if_pos hlast, if_pos hlast]
        rfl
  | write =>
      change 0 < p.numWritePorts at hports
      unfold request CachePort.getWritePort
      dsimp only
      rw [if_pos hports]
      change _ = ite (p.writeLastCycle ≠ cycle) _ _
      by_cases hlast : p.writeLastCycle = cycle
      · subst hlast
        rfl
      · rw [if_pos hlast, if_pos hlast]
        rfl

/-! ## Runs -/

/-- The calls of one kind that were granted in a cycle. -/
def granted (log : List (PortCall × Bool)) (kind : PortKind) (cycle : Counter) : ℕ :=
  log.countP fun y => y.2 && decide (y.1.kind = kind ∧ y.1.cycle = cycle)

/-- The calls of a run with their answers, and the port after them.  Cycles are positive and do
not go back. -/
inductive Calls (read write : ℕ) (writesPreventReads : Bool) :
    List (PortCall × Bool) → CachePort → Prop
  | new : Calls read write writesPreventReads [] (CachePort.new read write writesPreventReads)
  | call {log : List (PortCall × Bool)} {p p' : CachePort} {x : PortCall} {b : Bool}
      (h : Calls read write writesPreventReads log p) (hpos : 0 < x.cycle)
      (hlater : ∀ y ∈ log, y.1.cycle ≤ x.cycle) (hcall : request p x = some (p', b)) :
      Calls read write writesPreventReads (log ++ [(x, b)]) p'

variable {log : List (PortCall × Bool)}

/-- One more call adds a grant when it was granted and is of the kind and cycle asked for. -/
theorem granted_append (kind : PortKind) (cycle : Counter) :
    granted (log ++ [(x, b)]) kind cycle =
      granted log kind cycle + if b ∧ x.kind = kind ∧ x.cycle = cycle then 1 else 0 := by
  unfold granted
  rw [List.countP_append, List.countP_singleton]
  simp only [Bool.and_eq_true, decide_eq_true_eq]

/-- What the counters of a port mean. -/
structure PortBooks (log : List (PortCall × Bool)) (p : CachePort) : Prop where
  last : ∀ kind, lastCycle p kind = 0 ∨ ∃ y ∈ log, y.1.cycle = lastCycle p kind
  count : ∀ kind, inUse p kind = granted log kind (lastCycle p kind)
  later : ∀ kind cycle, lastCycle p kind < cycle → granted log kind cycle = 0
  used : ∀ kind, lastCycle p kind ≠ 0 → inUse p kind ≠ 0
  unused : ∀ kind, lastCycle p kind = 0 → ∀ cycle, granted log kind cycle = 0
  most : ∀ kind cycle, granted log kind cycle ≤ ports p kind

/-- New ports have their books right. -/
theorem portBooks_new (read write : ℕ) (writesPreventReads : Bool) :
    PortBooks [] (CachePort.new read write writesPreventReads) where
  last := fun kind => Or.inl (by cases kind <;> rfl)
  count := fun kind => by cases kind <;> rfl
  later := fun _ _ _ => rfl
  used := fun kind h => absurd (by cases kind <;> rfl) h
  unused := fun _ _ _ => rfl
  most := fun _ _ => Nat.zero_le _

/-- The next call is not in an earlier cycle than the last one of its kind. -/
theorem PortBooks.last_le (h : PortBooks log p) (hlater : ∀ y ∈ log, y.1.cycle ≤ x.cycle)
    (kind : PortKind) : lastCycle p kind ≤ x.cycle := by
  rcases h.last kind with hzero | ⟨y, hy, heq⟩
  · rw [hzero]
    bv_omega
  · exact heq ▸ hlater y hy

/-- A stamp of the cycle says that a call was granted in it. -/
theorem PortBooks.last_eq_iff (h : PortBooks log p) (hpos : 0 < x.cycle)
    (hlater : ∀ y ∈ log, y.1.cycle ≤ x.cycle) (kind : PortKind) :
    lastCycle p kind = x.cycle ↔ granted log kind x.cycle ≠ 0 := by
  constructor
  · intro heq
    rw [← heq, ← h.count kind]
    exact h.used kind (heq ▸ (BitVec.ne_of_lt hpos).symm)
  · intro hne
    by_contra hlast
    exact hne (h.later kind _ (BitVec.lt_of_le_ne (h.last_le hlater kind) hlast))

/-- A counter is only zero before the first call of its kind. -/
theorem PortBooks.inUse_eq_zero (h : PortBooks log p) (kind : PortKind) :
    inUse p kind = 0 ↔ ∀ cycle, granted log kind cycle = 0 := by
  constructor
  · intro hzero
    exact h.unused kind (not_not.mp fun hne => h.used kind hne hzero)
  · intro hnone
    rw [h.count]
    exact hnone _

/-- A call that is granted takes one of the ports that are left. -/
theorem PortBooks.charge (h : PortBooks log p) (hpos : 0 < x.cycle)
    (hlater : ∀ y ∈ log, y.1.cycle ≤ x.cycle) {n : ℕ}
    (hn : n = granted log x.kind x.cycle + 1) (hleft : n ≤ ports p x.kind) :
    PortBooks (log ++ [(x, true)]) (charge p x n) := by
  have hmem : (x, true) ∈ log ++ [(x, true)] := List.mem_append_right _ (List.mem_singleton_self _)
  have hgranted : ∀ kind cycle, granted (log ++ [(x, true)]) kind cycle =
      granted log kind cycle + if x.kind = kind ∧ x.cycle = cycle then 1 else 0 := by
    intro kind cycle
    rw [granted_append]
    simp only [true_and]
  have hother : ∀ kind cycle, x.kind ≠ kind →
      granted (log ++ [(x, true)]) kind cycle = granted log kind cycle := by
    intro kind cycle hne
    rw [hgranted, if_neg fun heq => hne heq.1, Nat.add_zero]
  refine ⟨fun kind => ?_, fun kind => ?_, fun kind cycle hcycle => ?_, fun kind hne => ?_,
    fun kind hzero cycle => ?_, fun kind cycle => ?_⟩
  · rw [lastCycle_charge]
    split
    · exact Or.inr ⟨_, hmem, rfl⟩
    · exact (h.last kind).imp_right fun ⟨y, hy, heq⟩ => ⟨y, List.mem_append_left _ hy, heq⟩
  · rw [lastCycle_charge, inUse_charge]
    by_cases hkind : kind = x.kind
    · subst hkind
      rw [if_pos rfl, if_pos rfl, hgranted, if_pos ⟨rfl, rfl⟩, hn]
    · rw [if_neg hkind, if_neg hkind, hother _ _ (Ne.symm hkind), h.count]
  · rw [lastCycle_charge] at hcycle
    by_cases hkind : kind = x.kind
    · subst hkind
      rw [if_pos rfl] at hcycle
      have hlast : lastCycle p x.kind < cycle := by
        have hle := h.last_le hlater x.kind
        bv_omega
      rw [hgranted, if_neg fun heq => BitVec.ne_of_lt hcycle heq.2]
      exact h.later _ _ hlast
    · rw [if_neg hkind] at hcycle
      rw [hother _ _ (Ne.symm hkind)]
      exact h.later kind cycle hcycle
  · rw [lastCycle_charge] at hne
    rw [inUse_charge]
    split
    · omega
    · next hkind =>
      rw [if_neg hkind] at hne
      exact h.used kind hne
  · rw [lastCycle_charge] at hzero
    by_cases hkind : kind = x.kind
    · rw [if_pos hkind] at hzero
      exact absurd hzero (BitVec.ne_of_lt hpos).symm
    · rw [if_neg hkind] at hzero
      rw [hother _ _ (Ne.symm hkind)]
      exact h.unused kind hzero cycle
  · rw [ports_charge, hgranted]
    split
    · next heq =>
      obtain ⟨rfl, rfl⟩ := heq
      omega
    · exact h.most kind cycle

/-- A call that is refused leaves the port. -/
theorem PortBooks.refuse (h : PortBooks log p) : PortBooks (log ++ [(x, false)]) p := by
  have hgranted : ∀ kind cycle,
      granted (log ++ [(x, false)]) kind cycle = granted log kind cycle := by
    intro kind cycle
    rw [granted_append, if_neg fun heq => Bool.false_ne_true heq.1, Nat.add_zero]
  refine ⟨fun kind => ?_, fun kind => ?_, fun kind cycle hcycle => ?_, h.used,
    fun kind hzero cycle => ?_, fun kind cycle => ?_⟩
  · exact (h.last kind).imp_right fun ⟨y, hy, heq⟩ => ⟨y, List.mem_append_left _ hy, heq⟩
  · rw [hgranted]
    exact h.count kind
  · rw [hgranted]
    exact h.later kind cycle hcycle
  · rw [hgranted]
    exact h.unused kind hzero cycle
  · rw [hgranted]
    exact h.most kind cycle

/-- What a call does, in terms of what was granted before. -/
theorem PortBooks.request_eq (h : PortBooks log p) (hpos : 0 < x.cycle)
    (hlater : ∀ y ∈ log, y.1.cycle ≤ x.cycle) (hports : 0 < ports p x.kind) :
    request p x =
      if granted log x.kind x.cycle = 0 then some (CachePort.charge p x 1, true)
      else if granted log x.kind x.cycle = ports p x.kind then some (p, false)
      else if p.writesPreventReads ∧ inUse p x.kind.other ≠ 0 then prevented p x.kind
      else some (CachePort.charge p x (granted log x.kind x.cycle + 1), true) := by
  rw [CachePort.request_eq hports]
  by_cases hlast : lastCycle p x.kind = x.cycle
  · have hcount : inUse p x.kind = granted log x.kind x.cycle := by rw [h.count, hlast]
    rw [if_neg (not_not.mpr hlast), if_neg ((h.last_eq_iff hpos hlater _).mp hlast), hcount]
  · rw [if_pos hlast,
      if_pos (not_not.mp fun hne => hlast ((h.last_eq_iff hpos hlater _).mpr hne))]

/-- Each call of a run leaves the counters as they should be. -/
theorem PortBooks.request (h : PortBooks log p) (hpos : 0 < x.cycle)
    (hlater : ∀ y ∈ log, y.1.cycle ≤ x.cycle) (hports : 0 < ports p x.kind)
    (hcall : CachePort.request p x = some (p', b)) : PortBooks (log ++ [(x, b)]) p' := by
  rw [h.request_eq hpos hlater hports] at hcall
  have hmost := h.most x.kind x.cycle
  split at hcall
  · next hnone =>
    cases hcall
    exact h.charge hpos hlater (by omega) (by omega)
  · split at hcall
    · cases hcall
      exact h.refuse
    · split at hcall
      · obtain ⟨kind, cycle⟩ := x
        cases kind with
        | read =>
            cases hcall
            exact h.refuse
        | write => cases hcall
      · cases hcall
        exact h.charge hpos hlater rfl (by omega)

/-- The ports of a run stay as they were built. -/
theorem request_ports (hports : 0 < ports p x.kind) (hcall : request p x = some (p', b)) :
    ports p' = ports p ∧ p'.writesPreventReads = p.writesPreventReads := by
  rw [request_eq hports] at hcall
  split at hcall
  · cases hcall
    exact ⟨ports_charge _, writesPreventReads_charge _⟩
  · split at hcall
    · cases hcall
      exact ⟨rfl, rfl⟩
    · split at hcall
      · obtain ⟨kind, cycle⟩ := x
        cases kind <;> cases hcall
        exact ⟨rfl, rfl⟩
      · cases hcall
        exact ⟨ports_charge _, writesPreventReads_charge _⟩

/-- After any list of calls the books are right and the parameters are those of the construction. -/
theorem portBooks_of_calls {read write : ℕ} {writesPreventReads : Bool} (hread : 0 < read)
    (hwrite : 0 < write) (h : Calls read write writesPreventReads log p) :
    PortBooks log p ∧ ports p = ports (CachePort.new read write writesPreventReads) ∧
      p.writesPreventReads = writesPreventReads := by
  have hnew : ∀ kind, 0 < ports (CachePort.new read write writesPreventReads) kind := by
    intro kind
    cases kind with
    | read => exact hread
    | write => exact hwrite
  induction h with
  | new => exact ⟨portBooks_new _ _ _, rfl, rfl⟩
  | @call log p p' x b _ hpos hlater hcall ih =>
      obtain ⟨hbooks, hports, hprevent⟩ := ih
      have hsome : 0 < ports p x.kind := hports ▸ hnew x.kind
      obtain ⟨hports', hprevent'⟩ := request_ports hsome hcall
      exact ⟨hbooks.request hpos hlater hsome hcall, hports'.trans hports,
        hprevent'.trans hprevent⟩

/-! ## What the arbitration promises -/

/-- The next call is answered as it should be.  Where the assertion stands, it looks at the reads
of the cycle of the call only, and it stands nowhere else. -/
structure Arbitrated (log : List (PortCall × Bool)) (p : CachePort) (x : PortCall) : Prop where
  most : (∃ p', request p x = some (p', true)) → granted log x.kind x.cycle < ports p x.kind
  refused : p.writesPreventReads = false → (∃ p', request p x = some (p', true)) ∨
    (∃ p', request p x = some (p', false)) ∧ granted log x.kind x.cycle = ports p x.kind
  afterWrite : p.writesPreventReads = true → x.kind = .read →
    (∃ p', request p x = some (p', true)) → granted log .write x.cycle = 0
  sameCycle : p.writesPreventReads = true → x.kind = .read →
    (∃ p', request p x = some (p', false)) →
      granted log .read x.cycle = ports p .read ∨ granted log .write x.cycle ≠ 0
  assertion : p.writesPreventReads = true → x.kind = .write → granted log .write x.cycle ≠ 0 →
    granted log .write x.cycle ≠ ports p .write →
      (request p x = none ↔ granted log .read x.cycle ≠ 0)
  nowhereElse : request p x = none → x.kind = .write ∧ granted log .write x.cycle ≠ 0 ∧
    granted log .write x.cycle ≠ ports p .write

/-- What the call finds of the other kind is not stale: the first read of a cycle comes before its
writes; a later call of a cycle for which a port is left comes before all calls of the other kind
that were granted, or one of these was granted in the same cycle. -/
def Fresh (log : List (PortCall × Bool)) (p : CachePort) (x : PortCall) : Prop :=
  p.writesPreventReads = true →
    (x.kind = .read → granted log .read x.cycle = 0 → granted log .write x.cycle = 0) ∧
      (granted log x.kind x.cycle ≠ 0 → granted log x.kind x.cycle ≠ ports p x.kind →
        (∀ cycle, granted log x.kind.other cycle = 0) ∨
          granted log x.kind.other x.cycle ≠ 0)

/-- A call that the other kind prevents. -/
theorem arbitrated_of_prevented (hprevent : p.writesPreventReads = true)
    (hnone : granted log x.kind x.cycle ≠ 0)
    (hleft : granted log x.kind x.cycle ≠ ports p x.kind)
    (hcall : request p x = prevented p x.kind) :
    Arbitrated log p x ↔ granted log x.kind.other x.cycle ≠ 0 := by
  obtain ⟨kind, cycle⟩ := x
  cases kind with
  | read =>
      change request p _ = some (p, false) at hcall
      constructor
      · intro h
        exact (h.sameCycle hprevent rfl ⟨p, hcall⟩).resolve_left hleft
      · intro hwrite
        have hnot : ¬ ∃ p', request p ⟨.read, cycle⟩ = some (p', true) := by
          rintro ⟨p', hp'⟩
          rw [hcall] at hp'
          cases hp'
        refine ⟨fun h => absurd h hnot, fun h => ?_, fun _ _ h => absurd h hnot,
          fun _ _ _ => Or.inr hwrite, fun _ h => ?_, fun h => ?_⟩
        · rw [hprevent] at h
          cases h
        · cases h
        · rw [hcall] at h
          cases h
  | write =>
      change request p _ = none at hcall
      constructor
      · intro h
        exact (h.assertion hprevent rfl hnone hleft).mp hcall
      · intro hread
        have hnot : ∀ b, ¬ ∃ p', request p ⟨.write, cycle⟩ = some (p', b) := by
          rintro b ⟨p', hp'⟩
          rw [hcall] at hp'
          cases hp'
        refine ⟨fun h => absurd h (hnot _), fun h => ?_, fun _ _ h => absurd h (hnot _),
          fun _ _ h => absurd h (hnot _), fun _ _ _ _ => iff_of_true hcall hread,
          fun _ => ⟨rfl, hnone, hleft⟩⟩
        rw [hprevent] at h
        cases h

/-- A call that is granted while a port is left. -/
theorem arbitrated_of_granted (hleft : granted log x.kind x.cycle < ports p x.kind)
    (hcall : request p x = some (p', true)) :
    Arbitrated log p x ↔ (p.writesPreventReads = true → x.kind = .read →
      granted log .write x.cycle = 0) ∧ (p.writesPreventReads = true → x.kind = .write →
        granted log .write x.cycle ≠ 0 → granted log .read x.cycle = 0) := by
  constructor
  · intro h
    refine ⟨fun hprevent hkind => h.afterWrite hprevent hkind ⟨p', hcall⟩,
      fun hprevent hkind hnone => ?_⟩
    have hlt := hleft.ne
    rw [hkind] at hlt
    by_contra hread
    have hnot := (h.assertion hprevent hkind hnone hlt).mpr hread
    rw [hcall] at hnot
    cases hnot
  · rintro ⟨hwrite, hread⟩
    refine ⟨fun _ => hleft, fun _ => Or.inl ⟨p', hcall⟩,
      fun hprevent hkind _ => hwrite hprevent hkind, fun _ _ h => ?_,
      fun hprevent hkind hnone _ => ?_, fun h => ?_⟩
    · obtain ⟨q, hq⟩ := h
      rw [hcall] at hq
      cases hq
    · refine iff_of_false (fun h => ?_) (not_not.mpr (hread hprevent hkind hnone))
      rw [hcall] at h
      cases h
    · rw [hcall] at h
      cases h

/-- A call for which no port is left. -/
theorem arbitrated_of_full (hfull : granted log x.kind x.cycle = ports p x.kind)
    (hcall : request p x = some (p, false)) : Arbitrated log p x := by
  have hnot : ¬ ∃ p', request p x = some (p', true) := by
    rintro ⟨p', hp'⟩
    rw [hcall] at hp'
    cases hp'
  refine ⟨fun h => absurd h hnot, fun _ => Or.inr ⟨⟨p, hcall⟩, hfull⟩, fun _ _ h => absurd h hnot,
    fun _ hkind _ => Or.inl ?_, fun _ hkind _ hleft => ?_, fun h => ?_⟩
  · rw [hkind] at hfull
    exact hfull
  · rw [hkind] at hfull
    exact absurd hfull hleft
  · rw [hcall] at h
    cases h

/-- However reads and writes follow each other, no more calls of a kind are granted in a cycle
than there are ports, and the next call is answered as it should be exactly if what it finds of
the other kind is not stale. -/
theorem port_arbitration_iff {read write : ℕ} {writesPreventReads : Bool} (hread : 0 < read)
    (hwrite : 0 < write) (h : Calls read write writesPreventReads log p) (hpos : 0 < x.cycle)
    (hlater : ∀ y ∈ log, y.1.cycle ≤ x.cycle) :
    (∀ cycle, granted log .read cycle ≤ read ∧ granted log .write cycle ≤ write) ∧
      (Arbitrated log p x ↔ Fresh log p x) := by
  obtain ⟨hbooks, hports, -⟩ := portBooks_of_calls hread hwrite h
  have hsome : 0 < ports p x.kind := by
    rw [hports]
    cases x.kind with
    | read => exact hread
    | write => exact hwrite
  refine ⟨fun cycle => ⟨?_, ?_⟩, ?_⟩
  · have hle := hbooks.most .read cycle
    rwa [hports] at hle
  · have hle := hbooks.most .write cycle
    rwa [hports] at hle
  have hcall := hbooks.request_eq hpos hlater hsome
  unfold Fresh
  by_cases hnone : granted log x.kind x.cycle = 0
  · rw [if_pos hnone] at hcall
    rw [arbitrated_of_granted (by omega) hcall]
    refine ⟨fun ⟨hreads, _⟩ hprevent => ⟨fun hkind _ => hreads hprevent hkind,
      fun hne => absurd hnone hne⟩, fun hfresh => ⟨fun hprevent hkind => ?_,
        fun _ hkind hne => ?_⟩⟩
    · exact (hfresh hprevent).1 hkind (hkind ▸ hnone)
    · exact absurd (hkind ▸ hnone) hne
  rw [if_neg hnone] at hcall
  by_cases hfull : granted log x.kind x.cycle = ports p x.kind
  · rw [if_pos hfull] at hcall
    refine iff_of_true (arbitrated_of_full hfull hcall) fun _ => ⟨fun hkind hzero => ?_,
      fun _ hleft => absurd hfull hleft⟩
    exact absurd (hkind ▸ hzero) hnone
  rw [if_neg hfull] at hcall
  have hleft : granted log x.kind x.cycle < ports p x.kind :=
    lt_of_le_of_ne (hbooks.most _ _) hfull
  by_cases hstale : p.writesPreventReads ∧ inUse p x.kind.other ≠ 0
  · rw [if_pos hstale] at hcall
    rw [arbitrated_of_prevented hstale.1 hnone hfull hcall]
    have hsometime := mt (hbooks.inUse_eq_zero x.kind.other).mpr hstale.2
    refine ⟨fun hsame _ => ⟨fun hkind hzero => absurd (hkind ▸ hzero) hnone,
      fun _ _ => Or.inr hsame⟩, fun hfresh => ?_⟩
    exact ((hfresh hstale.1).2 hnone hfull).resolve_left hsometime
  · rw [if_neg hstale] at hcall
    rw [arbitrated_of_granted hleft hcall]
    have hnever : p.writesPreventReads = true →
        ∀ cycle, granted log x.kind.other cycle = 0 := fun hprevent =>
      (hbooks.inUse_eq_zero _).mp (not_not.mp fun hne => hstale ⟨hprevent, hne⟩)
    refine iff_of_true ⟨fun hprevent hkind => ?_, fun hprevent hkind _ => ?_⟩
      fun hprevent => ⟨fun hkind hzero => absurd (hkind ▸ hzero) hnone,
        fun _ _ => Or.inl (hnever hprevent)⟩
    · have hnever := hnever hprevent x.cycle
      rwa [hkind] at hnever
    · have hnever := hnever hprevent x.cycle
      rwa [hkind] at hnever

/-- A write in cycle 5 and a read in cycle 6. -/
def writeThenRead : List (PortCall × Bool) := [(⟨.write, 5⟩, true), (⟨.read, 6⟩, true)]

/-- After a write and a read, of a port that takes two reads a cycle: a read in the next cycle is
answered as it should be, and a second read in the same cycle is not. -/
theorem port_arbitration_iff_read_and_write :
    ∃ p, Calls 2 1 true writeThenRead p ∧
      (∀ cycle, granted writeThenRead .read cycle ≤ 2 ∧ granted writeThenRead .write cycle ≤ 1) ∧
      Arbitrated writeThenRead p ⟨.read, 7⟩ ∧ ¬ Arbitrated writeThenRead p ⟨.read, 6⟩ := by
  have hwrite : Calls 2 1 true [(⟨.write, 5⟩, true)] _ :=
    .call (x := ⟨.write, 5⟩) .new (by decide) (fun _ hy => by cases hy) rfl
  have hread : Calls 2 1 true writeThenRead _ :=
    .call (x := ⟨.read, 6⟩) hwrite (by decide) (by decide) rfl
  have hnext := port_arbitration_iff (x := ⟨.read, 7⟩) (by decide) (by decide) hread (by decide)
    (by decide)
  have hagain := port_arbitration_iff (x := ⟨.read, 6⟩) (by decide) (by decide) hread (by decide)
    (by decide)
  refine ⟨_, hread, hnext.1, hnext.2.mpr ?_, fun h => ?_⟩
  · exact fun _ => ⟨fun _ _ => rfl, fun hne => absurd rfl hne⟩
  · obtain hnever | hnow := (hagain.2.mp h rfl).2 (by decide) (by decide)
    · exact absurd (hnever 5) (by decide)
    · exact absurd rfl hnow

/-- A port after a write in cycle 5. -/
def writtenPort : CachePort :=
  { CachePort.new 1 1 true with writeLastCycle := 5, writePortsInUse := 1 }

/-- The first read of the cycle is granted all the same. -/
theorem read_granted_after_write :
    Calls 1 1 true [(⟨.write, 5⟩, true)] writtenPort ∧
      ¬ Arbitrated [(⟨.write, 5⟩, true)] writtenPort ⟨.read, 5⟩ := by
  refine ⟨?_, fun h => ?_⟩
  · exact .call (x := ⟨.write, 5⟩) .new (by decide) (fun _ hy => by cases hy) rfl
  · exact absurd (h.afterWrite rfl rfl ⟨_, rfl⟩) (by decide)

end CachePort

end MacSim.Analysis
