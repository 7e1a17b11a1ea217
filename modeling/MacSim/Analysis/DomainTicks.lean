import MacSim.Model.ClockDomains

/-!
# The rates of the clock domains

The period of the internal clock is the least common multiple of the frequencies, so a domain
of frequency `f` should run at the multiples of a fraction `1 / f` of the period.  The
invariant says that at every cycle the count of a domain is the number of these multiples
passed so far and its next time the first one not passed.  The next time is then never
behind the clock, and the clock reaches it.
-/

set_option autoImplicit false

namespace MacSim.Analysis

open MacSim.Model
open MacSim.Computation

/-! ## The period -/

/-- The source's loop computes the greatest common divisor. -/
theorem gcd_eq (a b : ℕ) : Clocks.gcd a b = Nat.gcd a b := by
  induction b using Nat.strong_induction_on generalizing a with
  | _ b ih =>
    rw [Clocks.gcd]
    split_ifs with hb hmod
    · rw [hb, Nat.gcd_zero_right]
    · exact (Nat.gcd_eq_right (Nat.dvd_of_mod_eq_zero hmod)).symm
    · rw [ih (a % b) (Nat.mod_lt _ (Nat.pos_of_ne_zero hb)) b, Nat.gcd_comm a b, Nat.gcd_rec b a,
        Nat.gcd_comm]

/-- The source's quotient is the least common multiple. -/
theorem lcm_eq (a b : ℕ) : Clocks.lcm a b = Nat.lcm a b := by
  rw [Clocks.lcm, gcd_eq, Nat.lcm_eq_mul_div, Nat.div_mul_right_comm (Nat.gcd_dvd_left a b)]

/-- The loop over the frequencies yields a common multiple that divides all others. -/
theorem foldl_lcm (freq : ℕ → ℕ) (k : ℕ) :
    let period := (List.range k).foldl (fun period i => Clocks.lcm period (freq (i + 1))) (freq 0)
    (∀ d ≤ k, freq d ∣ period) ∧ ∀ q, (∀ d ≤ k, freq d ∣ q) → period ∣ q := by
  induction k with
  | zero => simp
  | succ k ih =>
    obtain ⟨hdvd, hleast⟩ := ih
    simp only [List.range_succ, List.foldl_append, List.foldl_cons, List.foldl_nil, lcm_eq] at *
    refine ⟨fun d hd => ?_, fun q hq => ?_⟩
    · rcases Nat.le_succ_iff.mp hd with hd | rfl
      · exact (hdvd d hd).trans (Nat.dvd_lcm_left _ _)
      · exact Nat.dvd_lcm_right _ _
    · exact Nat.lcm_dvd (hleast q fun d hd => hq d (by omega)) (hq (k + 1) le_rfl)

/-- The period of the internal clock is the least common multiple of the frequencies. -/
theorem clockLcm_start (n : ℕ) (freq : ℕ → ℕ) :
    (∀ d < 4 + n, freq d ∣ (Clocks.start n freq).clockLcm) ∧
      ∀ q, (∀ d < 4 + n, freq d ∣ q) → (Clocks.start n freq).clockLcm ∣ q := by
  obtain ⟨hdvd, hleast⟩ := foldl_lcm freq (3 + n)
  exact ⟨fun d hd => hdvd d (by omega), fun q hq => hleast q fun d hd => hq d (by omega)⟩

/-- The common period is positive when every frequency is. -/
theorem clockLcm_pos {n : ℕ} {freq : ℕ → ℕ} (hfreq : ∀ d < 4 + n, 0 < freq d) :
    0 < (Clocks.start n freq).clockLcm := by
  have hdvd := (clockLcm_start n freq).2 (∏ d ∈ Finset.range (4 + n), freq d)
    fun d hd => Finset.dvd_prod_of_mem freq (Finset.mem_range.mpr hd)
  exact Nat.pos_of_dvd_of_pos hdvd
    (Finset.prod_pos fun d hd => hfreq d (Finset.mem_range.mp hd))

/-- The next time is exact when the product with the count fits a `double`. -/
theorem nextTime_eq {lcm count freq : ℕ} (hdvd : freq ∣ lcm) (hfreq : 0 < freq)
    (hlcm : lcm ≤ 2 ^ 53) (hprod : lcm * count ≤ 2 ^ 53) :
    Clocks.nextTime lcm count freq = lcm / freq * count := by
  obtain ⟨p, rfl⟩ := hdvd
  have hquot : ((freq * p * count : ℕ) : ℚ) / freq = ((p * count : ℕ) : ℚ) := by
    have hne : (freq : ℚ) ≠ 0 := by positivity
    rw [div_eq_iff hne]
    push_cast
    ring
  have hsmall : p * count ≤ 2 ^ 53 :=
    le_trans (Nat.mul_le_mul_right count (Nat.le_mul_of_pos_left p hfreq)) hprod
  rw [Clocks.nextTime, Clocks.double, Clocks.double, Clocks.double,
    nearest_natCast (by norm_num) hlcm, ← Nat.cast_mul, nearest_natCast (by norm_num) hprod,
    hquot, nearest_natCast (by norm_num) hsmall, Nat.mul_div_cancel_left p hfreq]
  rw [Int.floor_natCast, Int.toNat_natCast]

/-! ## Turns -/

/-- A turn, on the domains and the list of those that have run. -/
def turnLog (t : Clocks × List ℕ) (d : ℕ) : Clocks × List ℕ :=
  if t.1.due d then (t.1.getNextCycle d, t.2 ++ [d]) else t

/-- `c'` is `c` after each of `ds` has had its turn. -/
structure TurnsTaken (c : Clocks) (ds : List ℕ) (c' : Clocks) : Prop where
  cores : c'.numSimCores = c.numSimCores
  lcm : c'.clockLcm = c.clockLcm
  clock : c'.clockInternal = c.clockInternal
  freq : c'.domainFreq = c.domainFreq
  count : ∀ d, c'.domainCount d =
    if d ∈ ds ∧ c.due d then c.domainCount d + 1 else c.domainCount d
  next : ∀ d, c'.domainNext d =
    if d ∈ ds ∧ c.due d then Clocks.nextTime c.clockLcm (c.domainCount d + 1) (c.domainFreq d)
    else c.domainNext d

/-- Turns in any order touch each domain on its own. -/
theorem foldl_turnLog {ds : List ℕ} (hnodup : ds.Nodup) (c : Clocks) (log : List ℕ) :
    TurnsTaken c ds (ds.foldl turnLog (c, log)).1 ∧
      (ds.foldl turnLog (c, log)).2 = log ++ ds.filter c.due := by
  induction ds generalizing c log with
  | nil => exact ⟨⟨rfl, rfl, rfl, rfl, by simp, by simp⟩, by simp⟩
  | cons a ds ih =>
    obtain ⟨hnot, hnodup⟩ := List.nodup_cons.mp hnodup
    rw [List.foldl_cons]
    by_cases hdue : c.due a
    · have hturn : turnLog (c, log) a = (c.getNextCycle a, log ++ [a]) := by
        simp [turnLog, hdue]
      obtain ⟨htaken, hlog⟩ := ih hnodup (c.getNextCycle a) (log ++ [a])
      have hother : ∀ d, d ≠ a → (c.getNextCycle a).due d = c.due d := by
        intro d hd
        simp [Clocks.due, Clocks.getNextCycle, hd]
      rw [hturn]
      refine ⟨⟨htaken.cores, htaken.lcm, htaken.clock, htaken.freq, fun d => ?_, fun d => ?_⟩, ?_⟩
      · rw [htaken.count d]
        by_cases hd : d = a
        · simp [hd, hnot, hdue, Clocks.getNextCycle]
        · rw [hother d hd]
          simp [hd, Clocks.getNextCycle]
      · rw [htaken.next d]
        by_cases hd : d = a
        · simp [hd, hnot, hdue, Clocks.getNextCycle]
        · rw [hother d hd]
          simp [hd, Clocks.getNextCycle]
      · rw [hlog, List.filter_cons_of_pos hdue, List.append_assoc, List.singleton_append]
        congr 2
        refine List.filter_congr fun d hd => hother d ?_
        rintro rfl
        exact hnot hd
    · have hturn : turnLog (c, log) a = (c, log) := by simp [turnLog, hdue]
      obtain ⟨htaken, hlog⟩ := ih hnodup c log
      have hmem : ∀ d, (d ∈ a :: ds ∧ c.due d) ↔ (d ∈ ds ∧ c.due d) := by
        intro d
        rw [List.mem_cons]
        constructor
        · rintro ⟨rfl | hd, h⟩
          · exact absurd h hdue
          · exact ⟨hd, h⟩
        · exact fun ⟨hd, h⟩ => ⟨Or.inr hd, h⟩
      rw [hturn]
      refine ⟨⟨htaken.cores, htaken.lcm, htaken.clock, htaken.freq, fun d => ?_, fun d => ?_⟩, ?_⟩
      · simp only [htaken.count d, hmem d]
      · simp only [htaken.next d, hmem d]
      · rw [hlog, List.filter_cons_of_neg hdue]

/-- The order in which the units take their turns in a cycle. -/
def turnOrder (c : Clocks) (pivot : ℕ) : List ℕ :=
  [c.clockIo, c.clockNoc, c.clockLlc, c.clockMc] ++ window c.numSimCores pivot c.numSimCores

/-- A cycle gives a turn to every clock domain and to nothing else. -/
theorem mem_turnOrder {c : Clocks} {pivot d : ℕ} :
    d ∈ turnOrder c pivot ↔ d < 4 + c.numSimCores := by
  simp only [turnOrder, List.mem_append, List.mem_cons, List.not_mem_nil, or_false,
    mem_window_full, Clocks.clockIo, Clocks.clockNoc, Clocks.clockLlc, Clocks.clockMc]
  omega

/-- Every unit has one turn in a cycle. -/
theorem nodup_turnOrder (c : Clocks) (pivot : ℕ) : (turnOrder c pivot).Nodup := by
  refine List.Nodup.append ?_ (nodup_window le_rfl) fun d hd hwindow => ?_
  · simp [Clocks.clockIo, Clocks.clockNoc, Clocks.clockLlc, Clocks.clockMc]
  · have hlt := mem_window_full.mp hwindow
    simp only [List.mem_cons, List.not_mem_nil, or_false, Clocks.clockIo, Clocks.clockNoc,
      Clocks.clockLlc, Clocks.clockMc] at hd
    omega

/-- On the clocks and the log, the turn of an uncore domain is the turn of a bare domain. -/
theorem clocks_uncoreTurn (t : Macsim × List ℕ) (d : ℕ) :
    ((Macsim.uncoreTurn t d).1.clocks, (Macsim.uncoreTurn t d).2) =
      turnLog (t.1.clocks, t.2) d := by
  unfold Macsim.uncoreTurn turnLog
  split_ifs <;> rfl

/-- On the clocks and the log, the turn of a core is the turn of a bare domain. -/
theorem clocks_coreTurn (t : Macsim × List ℕ) (d : ℕ) :
    ((Macsim.coreTurn t d).1.clocks, (Macsim.coreTurn t d).2) = turnLog (t.1.clocks, t.2) d := by
  unfold Macsim.coreTurn turnLog
  dsimp only
  split_ifs <;> rfl

/-- The turn of an uncore domain leaves the cycle counter alone. -/
theorem simulationCycle_uncoreTurn (t : Macsim × List ℕ) (d : ℕ) :
    (Macsim.uncoreTurn t d).1.simulationCycle = t.1.simulationCycle := by
  unfold Macsim.uncoreTurn
  split_ifs <;> rfl

/-- The turn of a core leaves the cycle counter alone. -/
theorem simulationCycle_coreTurn (t : Macsim × List ℕ) (d : ℕ) :
    (Macsim.coreTurn t d).1.simulationCycle = t.1.simulationCycle := by
  unfold Macsim.coreTurn
  dsimp only
  split_ifs <;> rfl

/-- The loop over the cores, on the domains. -/
theorem foldl_coreTurn (n pivot : ℕ) (ks : List ℕ) (t : Macsim × List ℕ) :
    let t' := ks.foldl (fun t kk => Macsim.coreTurn t ((kk + pivot) % n)) t
    (t'.1.clocks, t'.2) =
        (ks.map fun kk => (pivot + kk) % n).foldl turnLog (t.1.clocks, t.2) ∧
      t'.1.simulationCycle = t.1.simulationCycle := by
  induction ks generalizing t with
  | nil => exact ⟨rfl, rfl⟩
  | cons k ks ih =>
    obtain ⟨hclocks, hcycle⟩ := ih (Macsim.coreTurn t ((k + pivot) % n))
    refine ⟨?_, hcycle.trans (simulationCycle_coreTurn t _)⟩
    rw [List.map_cons, List.foldl_cons, List.foldl_cons, Nat.add_comm pivot k, ← clocks_coreTurn]
    exact hclocks

/-- In a cycle every unit has its turn. -/
theorem turns_taken (m : Macsim) :
    ∃ pivot, TurnsTaken m.clocks (turnOrder m.clocks pivot) m.turns.1.clocks ∧
      m.turns.2 = (turnOrder m.clocks pivot).filter m.clocks.due ∧
      m.turns.1.simulationCycle = m.simulationCycle := by
  refine ⟨m.coreCycle 0 + 1, ?_⟩
  obtain ⟨hfold, hcycle⟩ := foldl_coreTurn m.clocks.numSimCores (m.coreCycle 0 + 1)
    (List.range m.clocks.numSimCores)
    (Macsim.uncoreTurn (Macsim.uncoreTurn (Macsim.uncoreTurn (Macsim.uncoreTurn (m, [])
      m.clocks.clockIo) m.clocks.clockNoc) m.clocks.clockLlc) m.clocks.clockMc)
  rw [clocks_uncoreTurn, clocks_uncoreTurn, clocks_uncoreTurn, clocks_uncoreTurn] at hfold
  simp only [simulationCycle_uncoreTurn] at hcycle
  have horder : (m.turns.1.clocks, m.turns.2) =
      (turnOrder m.clocks (m.coreCycle 0 + 1)).foldl turnLog (m.clocks, []) := by
    rw [turnOrder, List.foldl_append]
    exact hfold
  obtain ⟨htaken, hlog⟩ :=
    foldl_turnLog (nodup_turnOrder m.clocks (m.coreCycle 0 + 1)) m.clocks []
  rw [← horder] at htaken hlog
  exact ⟨htaken, hlog, hcycle⟩

/-- What a call does when it does not stop: every unit has its turn, and the clock advances. -/
theorem runACycle_some {m m' : Macsim} {stopped : Bool} {ran : List ℕ}
    (h : m.runACycle stopped = some (m', ran)) :
    ∃ pivot c, TurnsTaken m.clocks (turnOrder m.clocks pivot) c ∧
      ran = (turnOrder m.clocks pivot).filter m.clocks.due ∧
      m'.clocks = c.advance ∧ m'.simulationCycle = m.simulationCycle + 1 := by
  unfold Macsim.runACycle at h
  split at h
  · cases h
  generalize hm : (if m.terminationCount = m.clocks.numSimCores then
    { m with terminationCount := 0, terminationCheck := fun _ => false } else m) = m₀ at h
  have hclocks₀ : m₀.clocks = m.clocks := by rw [← hm]; split_ifs <;> rfl
  have hcycle₀ : m₀.simulationCycle = m.simulationCycle := by rw [← hm]; split_ifs <;> rfl
  obtain ⟨pivot, htaken, hlog, hcycle⟩ := turns_taken m₀
  obtain ⟨rfl, rfl⟩ := Prod.mk.inj (Option.some.inj h)
  rw [hclocks₀] at htaken hlog
  refine ⟨pivot, _, htaken, hlog, rfl, ?_⟩
  rw [← hcycle₀, ← hcycle]

/-! ## The invariant -/

/-- The number of multiples of `p` below `c`; the one of this index is the first from `c` on. -/
def multiplesBelow (p c : ℕ) : ℕ := c / p + if p ∣ c then 0 else 1

/-- No multiple of a period lies below zero. -/
@[simp] theorem multiplesBelow_zero (p : ℕ) : multiplesBelow p 0 = 0 := by
  simp [multiplesBelow]

/-- The next tick of a domain falls on a call exactly when its period divides the call. -/
theorem eq_mul_multiplesBelow {p c : ℕ} : c = p * multiplesBelow p c ↔ p ∣ c := by
  constructor
  · exact fun h => ⟨_, h⟩
  · intro h
    rw [multiplesBelow, if_pos h, Nat.add_zero, Nat.mul_div_cancel' h]

/-- One more call adds a tick exactly when the period divides it. -/
theorem multiplesBelow_succ {p c : ℕ} :
    multiplesBelow p (c + 1) =
      if p ∣ c then multiplesBelow p c + 1 else multiplesBelow p c := by
  have hsucc : multiplesBelow p (c + 1) = c / p + 1 := by
    rw [multiplesBelow, Nat.succ_div]
    split_ifs <;> rfl
  rw [hsucc, multiplesBelow]
  split_ifs <;> rfl

/-- The time between two turns of a domain. -/
def turnPeriod (c : Clocks) (d : ℕ) : ℕ := c.clockLcm / c.domainFreq d

/-- The frequencies divide the period of the clock, and the products of the next times fit a
`double`. -/
structure Rated (c : Clocks) : Prop where
  lcm_pos : 0 < c.clockLcm
  freq_pos : ∀ d < 4 + c.numSimCores, 0 < c.domainFreq d
  freq_dvd : ∀ d < 4 + c.numSimCores, c.domainFreq d ∣ c.clockLcm
  fits : ∀ d < 4 + c.numSimCores, c.clockLcm * c.domainFreq d ≤ 2 ^ 53

/-- Each domain has counted its turns so far, and its next time is that of the next turn. -/
structure OnTime (c : Clocks) : Prop extends Rated c where
  clock_lt : c.clockInternal < c.clockLcm
  count : ∀ d < 4 + c.numSimCores,
    c.domainCount d = multiplesBelow (turnPeriod c d) c.clockInternal
  next : ∀ d < 4 + c.numSimCores, c.domainNext d = turnPeriod c d * c.domainCount d

/-- A domain that is on time is due exactly at the multiples of its period. -/
theorem OnTime.due_iff {c : Clocks} (h : OnTime c) {d : ℕ} (hd : d < 4 + c.numSimCores) :
    c.due d ↔ turnPeriod c d ∣ c.clockInternal := by
  rw [Clocks.due, beq_iff_eq, h.next d hd, h.count d hd]
  exact eq_mul_multiplesBelow

/-- The next time of a domain is never behind the clock. -/
theorem OnTime.clock_le_next {c : Clocks} (h : OnTime c) {d : ℕ} (hd : d < 4 + c.numSimCores) :
    c.clockInternal ≤ c.domainNext d := by
  rw [h.next d hd, h.count d hd, multiplesBelow]
  split_ifs with hdvd
  · rw [Nat.add_zero, Nat.mul_div_cancel' hdvd]
  · have hpos : 0 < turnPeriod c d :=
      Nat.div_pos (Nat.le_of_dvd h.lcm_pos (h.freq_dvd d hd)) (h.freq_pos d hd)
    exact (Nat.lt_mul_div_succ c.clockInternal hpos).le

/-- A turn at the right time computes the next one exactly. -/
theorem OnTime.nextTime_eq {c : Clocks} (h : OnTime c) {d : ℕ} (hd : d < 4 + c.numSimCores)
    (hdue : c.due d) :
    Clocks.nextTime c.clockLcm (c.domainCount d + 1) (c.domainFreq d) =
      turnPeriod c d * (c.domainCount d + 1) := by
  have hclock : c.clockInternal = c.domainNext d := beq_iff_eq.mp hdue
  have hlcm : turnPeriod c d * c.domainFreq d = c.clockLcm :=
    Nat.div_mul_cancel (h.freq_dvd d hd)
  -- the domain has run less than its frequency times, as the clock is inside the period
  have hcount : c.domainCount d < c.domainFreq d := by
    refine Nat.lt_of_mul_lt_mul_left (a := turnPeriod c d) ?_
    rw [hlcm, ← h.next d hd, ← hclock]
    exact h.clock_lt
  have hfits := h.fits d hd
  refine MacSim.Analysis.nextTime_eq (h.freq_dvd d hd) (h.freq_pos d hd) ?_ ?_
  · exact (Nat.le_mul_of_pos_right _ (h.freq_pos d hd)).trans hfits
  · exact (Nat.mul_le_mul_left _ hcount).trans hfits

/-- A cycle leaves the domains on time. -/
theorem OnTime.cycle {c c' : Clocks} {pivot : ℕ} (h : OnTime c)
    (htaken : TurnsTaken c (turnOrder c pivot) c') :
    OnTime c'.advance ∧ c'.advance.numSimCores = c.numSimCores ∧
      c'.advance.clockLcm = c.clockLcm ∧ c'.advance.domainFreq = c.domainFreq ∧
      c'.advance.clockInternal = (c.clockInternal + 1) % c.clockLcm ∧
      (c.clockInternal + 1 = c.clockLcm →
        ∀ d < 4 + c.numSimCores, c'.advance.domainCount d = 0 ∧ c'.advance.domainNext d = 0) := by
  have hcount : ∀ d < 4 + c.numSimCores,
      c'.domainCount d = multiplesBelow (turnPeriod c d) (c.clockInternal + 1) := by
    intro d hd
    have hiff : d ∈ turnOrder c pivot ∧ c.due d = true ↔ turnPeriod c d ∣ c.clockInternal := by
      rw [mem_turnOrder, h.due_iff hd]
      exact and_iff_right hd
    simp only [htaken.count d, hiff, multiplesBelow_succ, h.count d hd]
  have hnext : ∀ d < 4 + c.numSimCores,
      c'.domainNext d = turnPeriod c d * c'.domainCount d := by
    intro d hd
    rw [htaken.next d, htaken.count d]
    split_ifs with hdue
    · exact h.nextTime_eq hd hdue.2
    · exact h.next d hd
  have hlt := h.clock_lt
  by_cases hwrap : c.clockInternal + 1 = c.clockLcm
  · have hadv : c'.advance = { c' with
        clockInternal := 0
        domainCount := fun i => if i < 4 + c'.numSimCores then 0 else c'.domainCount i
        domainNext := fun i => if i < 4 + c'.numSimCores then 0 else c'.domainNext i } := by
      simp [Clocks.advance, htaken.clock, htaken.lcm, hwrap]
    rw [hadv]
    refine ⟨⟨⟨?_, ?_, ?_, ?_⟩, ?_, ?_, ?_⟩, htaken.cores, htaken.lcm, htaken.freq, ?_, ?_⟩
    · rw [htaken.lcm]; exact h.lcm_pos
    · rw [htaken.cores, htaken.freq]; exact h.freq_pos
    · rw [htaken.cores, htaken.freq, htaken.lcm]; exact h.freq_dvd
    · rw [htaken.cores, htaken.freq, htaken.lcm]; exact h.fits
    · rw [htaken.lcm]; exact h.lcm_pos
    · intro d hd
      dsimp only at hd ⊢
      rw [if_pos hd, multiplesBelow_zero]
    · intro d hd
      dsimp only at hd ⊢
      rw [if_pos hd, if_pos hd, Nat.mul_zero]
    · rw [hwrap, Nat.mod_self]
    · intro _ d hd
      rw [← htaken.cores] at hd
      simp [hd]
  · have hadv : c'.advance = { c' with clockInternal := c.clockInternal + 1 } := by
      simp [Clocks.advance, htaken.clock, htaken.lcm, hwrap]
    rw [hadv]
    refine ⟨⟨⟨?_, ?_, ?_, ?_⟩, ?_, ?_, ?_⟩, htaken.cores, htaken.lcm, htaken.freq, ?_, ?_⟩
    · rw [htaken.lcm]; exact h.lcm_pos
    · rw [htaken.cores, htaken.freq]; exact h.freq_pos
    · rw [htaken.cores, htaken.freq, htaken.lcm]; exact h.freq_dvd
    · rw [htaken.cores, htaken.freq, htaken.lcm]; exact h.fits
    · rw [htaken.lcm]
      dsimp only
      omega
    · rw [htaken.cores]
      intro d hd
      simpa only [turnPeriod, htaken.lcm, htaken.freq] using hcount d hd
    · rw [htaken.cores]
      intro d hd
      simpa only [turnPeriod, htaken.lcm, htaken.freq] using hnext d hd
    · exact (Nat.mod_eq_of_lt (Nat.lt_of_le_of_ne hlt hwrap)).symm
    · exact fun heq => absurd heq hwrap

/-! ## Runs -/

/-- The clock values at which a domain has run. -/
def ticks (log : List (ℕ × ℕ)) (d : ℕ) : List ℕ :=
  (log.filter fun entry => entry.2 = d).map Prod.fst

/-- The ticks of two logs in sequence are those of the first and then those of the second. -/
theorem ticks_append (log log' : List (ℕ × ℕ)) (d : ℕ) :
    ticks (log ++ log') d = ticks log d ++ ticks log' d := by
  simp [ticks]

/-- A cycle logs a domain once if it is due, and not otherwise. -/
theorem ticks_cycle {ds : List ℕ} (hnodup : ds.Nodup) (clock d : ℕ) :
    ticks (ds.map fun e => (clock, e)) d = if d ∈ ds then [clock] else [] := by
  induction ds with
  | nil => rfl
  | cons e ds ih =>
    obtain ⟨hnot, hnodup⟩ := List.nodup_cons.mp hnodup
    have hcons : ticks ((e :: ds).map fun e => (clock, e)) d =
        (if e = d then [clock] else []) ++ ticks (ds.map fun e => (clock, e)) d := by
      simp only [ticks, List.map_cons, List.filter_cons]
      split_ifs with hed
      all_goals simp_all
    rw [hcons, ih hnodup]
    by_cases hed : e = d
    · subst hed
      simp [hnot]
    · have hde : d ≠ e := fun h => hed h.symm
      simp [hed, hde]

/-- The termination test of a call holds. -/
def Stops (m : Macsim) (stopped : Bool) : Prop :=
  m.terminationCount = m.clocks.numSimCores ∧ stopped = true

instance (m : Macsim) (stopped : Bool) : Decidable (Stops m stopped) :=
  inferInstanceAs (Decidable (_ ∧ _))

/-- The number of calls that the termination test lets pass. -/
def passed (m : Macsim) : List Bool → ℕ
  | [] => 0
  | stopped :: calls =>
    (if Stops m stopped then 0 else 1) + passed (m.runCycles [stopped]).1 calls

/-- A call that the test stops changes nothing. -/
theorem passed_cons_of_none {m : Macsim} {stopped : Bool} (h : m.runACycle stopped = none)
    (calls : List Bool) : passed m (stopped :: calls) = passed m calls := by
  have hstops : Stops m stopped := by
    by_contra hnot
    unfold Stops at hnot
    rw [Macsim.runACycle, if_neg hnot] at h
    cases h
  have hsame : (m.runCycles [stopped]).1 = m := by simp only [Macsim.runCycles, h]
  rw [passed, if_pos hstops, hsame, Nat.zero_add]

/-- Any other call passes. -/
theorem passed_cons_of_some {m m' : Macsim} {stopped : Bool} {ran : List ℕ}
    (h : m.runACycle stopped = some (m', ran)) (calls : List Bool) :
    passed m (stopped :: calls) = passed m' calls + 1 := by
  have hnot : ¬ Stops m stopped := by
    intro hstops
    unfold Stops at hstops
    rw [Macsim.runACycle, if_pos hstops] at h
    cases h
  have hnext : (m.runCycles [stopped]).1 = m' := by simp only [Macsim.runCycles, h]
  rw [passed, if_neg hnot, hnext, Nat.add_comm]

/-- Calls pass as long as there is an active thread and no repetition is done. -/
theorem passed_replicate (m : Macsim) (k : ℕ) : passed m (List.replicate k false) = k := by
  induction k generalizing m with
  | zero => rfl
  | succ k ih =>
    have hnot : ¬ Stops m false := fun h => Bool.false_ne_true h.2
    rw [List.replicate_succ, passed, if_neg hnot, ih, Nat.add_comm]

/-- The state and the log after the calls, `k` of which pass the termination test. -/
structure CyclesTaken (m : Macsim) (k : ℕ) (r : Macsim × List (ℕ × ℕ)) : Prop where
  cycle : r.1.simulationCycle = m.simulationCycle + k
  onTime : OnTime r.1.clocks
  cores : r.1.clocks.numSimCores = m.clocks.numSimCores
  lcm : r.1.clocks.clockLcm = m.clocks.clockLcm
  freq : r.1.clocks.domainFreq = m.clocks.domainFreq
  clock : r.1.clocks.clockInternal = (m.clocks.clockInternal + k) % m.clocks.clockLcm
  ticks : m.clocks.clockInternal + k ≤ m.clocks.clockLcm → ∀ d < 4 + m.clocks.numSimCores,
    ticks r.2 d = (List.range' m.clocks.clockInternal k).filter (turnPeriod m.clocks d ∣ ·)

/-- The clock counts the calls that pass, and inside a period each domain runs at its
multiples. -/
theorem runCycles_onTime {m : Macsim} (h : OnTime m.clocks) (calls : List Bool) :
    CyclesTaken m (passed m calls) (m.runCycles calls) := by
  induction calls generalizing m with
  | nil => exact ⟨rfl, h, rfl, rfl, rfl, (Nat.mod_eq_of_lt h.clock_lt).symm, fun _ d _ => rfl⟩
  | cons stopped calls ih =>
    cases hrun : m.runACycle stopped with
    | none =>
      rw [passed_cons_of_none hrun]
      simpa only [Macsim.runCycles, hrun] using ih h
    | some out =>
      obtain ⟨m', ran⟩ := out
      obtain ⟨pivot, c, htaken, hran, hclocks, hcycle⟩ := runACycle_some hrun
      obtain ⟨hon, hcores, hlcm, hfreq, hclock, -⟩ := h.cycle htaken
      rw [← hclocks] at hon hcores hlcm hfreq hclock
      obtain ⟨hcycle', hon', hcores', hlcm', hfreq', hclock', hticks⟩ := ih hon
      rw [passed_cons_of_some hrun]
      generalize passed m' calls = k at *
      simp only [Macsim.runCycles, hrun]
      refine ⟨by dsimp only; omega, hon', hcores'.trans hcores, hlcm'.trans hlcm,
        hfreq'.trans hfreq, ?_, fun hfit d hd => ?_⟩
      · dsimp only
        rw [hclock', hclock, hlcm, Nat.mod_add_mod, Nat.add_assoc, Nat.add_comm 1 k]
      · have hfirst : ticks (ran.map fun e => (m.clocks.clockInternal, e)) d =
            if turnPeriod m.clocks d ∣ m.clocks.clockInternal then [m.clocks.clockInternal]
            else [] := by
          have hmem : d ∈ (turnOrder m.clocks pivot).filter m.clocks.due ↔
              turnPeriod m.clocks d ∣ m.clocks.clockInternal := by
            rw [List.mem_filter, mem_turnOrder, h.due_iff hd]
            exact and_iff_right hd
          rw [hran, ticks_cycle ((nodup_turnOrder _ _).filter _)]
          simp only [hmem]
        -- at the end of the period nothing may follow, and elsewhere the clock goes on by one
        have hrest : ticks (m'.runCycles calls).2 d =
            (List.range' (m.clocks.clockInternal + 1) k).filter
              (turnPeriod m.clocks d ∣ ·) := by
          have hlt := h.clock_lt
          by_cases hwrap : m.clocks.clockInternal + 1 = m.clocks.clockLcm
          · obtain rfl : k = 0 := by omega
            have hzero : m'.clocks.clockInternal = 0 := by rw [hclock, hwrap, Nat.mod_self]
            rw [hticks (by rw [hzero, hlcm]; omega) d (by omega)]
            rfl
          · have hnext : m'.clocks.clockInternal = m.clocks.clockInternal + 1 := by
              rw [hclock, Nat.mod_eq_of_lt (by omega)]
            have hperiod : turnPeriod m'.clocks d = turnPeriod m.clocks d := by
              rw [turnPeriod, turnPeriod, hlcm, hfreq]
            rw [hticks (by rw [hnext, hlcm]; omega) d (by omega), hnext, hperiod]
        rw [ticks_append, hfirst, hrest, List.range'_succ]
        by_cases hdvd : turnPeriod m.clocks d ∣ m.clocks.clockInternal
        · rw [if_pos hdvd, List.filter_cons_of_pos (by simpa using hdvd), List.singleton_append]
        · rw [if_neg hdvd, List.filter_cons_of_neg (by simpa using hdvd), List.nil_append]

/-- The multiples of a divisor below a number. -/
theorem filter_dvd_range (p f : ℕ) (hp : 0 < p) :
    (List.range (f * p)).filter (p ∣ ·) = (List.range f).map (· * p) := by
  induction f with
  | zero => simp
  | succ f ih =>
    have hblock : (List.range p).filter (fun i => p ∣ f * p + i) = [0] := by
      obtain ⟨q, rfl⟩ := Nat.exists_eq_succ_of_ne_zero hp.ne'
      rw [List.range_succ_eq_map, List.filter_cons_of_pos (by simp), List.filter_map]
      have hnone : (List.range q).filter
          ((fun i => decide (q + 1 ∣ f * (q + 1) + i)) ∘ Nat.succ) = [] := by
        refine List.filter_eq_nil_iff.mpr fun i hi => ?_
        have hlt := List.mem_range.mp hi
        simp only [Function.comp_apply, decide_eq_true_eq]
        intro hdvd
        have hdvd' := (Nat.dvd_add_right (Nat.dvd_mul_left (q + 1) f)).mp hdvd
        have := Nat.le_of_dvd (Nat.succ_pos i) hdvd'
        omega
      rw [Nat.succ_eq_add_one, hnone, List.map_nil]
    rw [Nat.succ_mul, List.range_add, List.filter_append, ih, List.filter_map, List.range_succ,
      List.map_append]
    congr 1
    rw [Function.comp_def, hblock]
    simp

/-- Before the first cycle all domains are on time. -/
theorem onTime_start {n : ℕ} {freq : ℕ → ℕ} (hfreq : ∀ d < 4 + n, 0 < freq d)
    (hfits : ∀ d < 4 + n, (Clocks.start n freq).clockLcm * freq d ≤ 2 ^ 53) :
    OnTime (Macsim.start n freq).clocks :=
  ⟨⟨clockLcm_pos hfreq, hfreq, (clockLcm_start n freq).1, hfits⟩, clockLcm_pos hfreq,
    fun _ _ => (multiplesBelow_zero _).symm, fun _ _ => (Nat.mul_zero _).symm⟩

/-- Over any number of calls, the clock counts those that pass the termination test, and in every
window of a whole period of them that starts at clock zero each domain runs exactly its frequency
times, at the multiples of its share of the period; no next time is ever behind the clock, and at
the end of the window all domains start over. -/
theorem domains_tick_at_their_rates (n : ℕ) (freq : ℕ → ℕ)
    (hfreq : ∀ d < 4 + n, 0 < freq d)
    (hfits : ∀ d < 4 + n, (Clocks.start n freq).clockLcm * freq d ≤ 2 ^ 53)
    (before : List Bool) :
    let period := (Clocks.start n freq).clockLcm
    let m := ((Macsim.start n freq).runCycles before).1
    m.simulationCycle = passed (Macsim.start n freq) before ∧
      m.clocks.clockInternal = m.simulationCycle % period ∧
      (∀ d < 4 + n, m.clocks.clockInternal ≤ m.clocks.domainNext d) ∧
      (m.clocks.clockInternal = 0 → ∀ window : List Bool, passed m window = period →
        let r := m.runCycles window
        r.1.simulationCycle = m.simulationCycle + period ∧ r.1.clocks.clockInternal = 0 ∧
          ∀ d < 4 + n,
            ticks r.2 d = (List.range (freq d)).map (· * (period / freq d)) ∧
            (ticks r.2 d).length = freq d ∧
            r.1.clocks.domainCount d = 0 ∧ r.1.clocks.domainNext d = 0) := by
  dsimp only
  have hstart := onTime_start hfreq hfits
  obtain ⟨hcycle, hon, hcores, hlcm, hfreq', hclock, -⟩ := runCycles_onTime hstart before
  generalize passed (Macsim.start n freq) before = k at *
  generalize ((Macsim.start n freq).runCycles before).1 = m at *
  replace hcores : m.clocks.numSimCores = n := hcores
  replace hlcm : m.clocks.clockLcm = (Clocks.start n freq).clockLcm := hlcm
  replace hfreq' : m.clocks.domainFreq = freq := hfreq'
  replace hclock : m.clocks.clockInternal = (0 + k) % (Clocks.start n freq).clockLcm := hclock
  replace hcycle : m.simulationCycle = 0 + k := hcycle
  refine ⟨by rw [hcycle, Nat.zero_add], by rw [hclock, hcycle],
    fun d hd => hon.clock_le_next (by omega), ?_⟩
  intro hzero window hwindow
  obtain ⟨hcycle₂, hon₂, hcores₂, hlcm₂, hfreq₂, hclock₂, hticks₂⟩ :=
    runCycles_onTime hon window
  rw [hwindow] at hcycle₂ hclock₂ hticks₂
  rw [hzero, Nat.zero_add] at hclock₂ hticks₂
  rw [hlcm, Nat.mod_self] at hclock₂
  refine ⟨hcycle₂, hclock₂, fun d hd => ?_⟩
  have hdvd := (clockLcm_start n freq).1 d hd
  have hticks := hticks₂ hlcm.ge d (by omega)
  have hperiod : turnPeriod m.clocks d = (Clocks.start n freq).clockLcm / freq d := by
    rw [turnPeriod, hlcm, hfreq']
  have hpos : 0 < (Clocks.start n freq).clockLcm / freq d :=
    Nat.div_pos (Nat.le_of_dvd (clockLcm_pos hfreq) hdvd) (hfreq d hd)
  have hlist : ticks (m.runCycles window).2 d =
      (List.range (freq d)).map (· * ((Clocks.start n freq).clockLcm / freq d)) := by
    rw [hticks, hperiod, ← List.range_eq_range', ← filter_dvd_range _ _ hpos,
      Nat.mul_div_cancel' hdvd]
  have hcount : (m.runCycles window).1.clocks.domainCount d = 0 := by
    rw [hon₂.count d (by omega), hclock₂, multiplesBelow_zero]
  refine ⟨hlist, by rw [hlist]; simp, hcount, ?_⟩
  rw [hon₂.next d (by omega), hcount, Nat.mul_zero]

/-- The frequencies 2 of a CPU core, 3 of a GPU core and 1 of everything else. -/
def twoCores : ℕ → ℕ :=
  domainFreq 2 (fun core => core == 1) fun i => if i = 0 then 2 else if i = 1 then 3 else 1

/-- A CPU core and a GPU core: the period is six, and in the first six calls the cores run twice
and three times. -/
theorem domains_tick_two_cores :
    let m := Macsim.initClockDomain 2 (fun core => core == 1)
      fun i => if i = 0 then 2 else if i = 1 then 3 else 1
    let r := m.runCycles (List.replicate 6 false)
    r.1.simulationCycle = 6 ∧ r.1.clocks.clockInternal = 0 ∧
      ticks r.2 0 = [0, 3] ∧ ticks r.2 1 = [0, 2, 4] := by
  have hfreq : ∀ d < 4 + 2, 0 < twoCores d := by decide
  have hlcm : (Clocks.start 2 twoCores).clockLcm = 6 := by
    simp [Clocks.start, List.range_succ, lcm_eq, twoCores, domainFreq]
    decide
  have hfits : ∀ d < 4 + 2, (Clocks.start 2 twoCores).clockLcm * twoCores d ≤ 2 ^ 53 := by
    rw [hlcm]
    decide
  have hall := domains_tick_at_their_rates 2 twoCores hfreq hfits []
  dsimp only at hall ⊢
  rw [hlcm] at hall
  obtain ⟨hcycle, hclock, hticks⟩ :=
    hall.2.2.2 rfl (List.replicate 6 false) (passed_replicate _ 6)
  exact ⟨hcycle, hclock, (hticks 0 (by decide)).1, (hticks 1 (by decide)).1⟩

end MacSim.Analysis
