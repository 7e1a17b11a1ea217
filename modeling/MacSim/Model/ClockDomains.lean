import Mathlib.Logic.Function.Basic
import MacSim.Computation.Ring
import MacSim.Computation.Rounding

/-!
# The clock domains

`macsim_c` drives every core, the last level cache, the interconnection network, the memory
controllers and the I/O device from one internal clock.  Each of them is a domain with its own
frequency.  The internal clock runs through the least common multiple of the frequencies and
starts over; a domain runs when the clock equals the domain's next time, and the next time is
computed in double precision from the number of times the domain has run.

The frequencies are integers here: the loop that multiplies the knobs by ten when one of them
has a decimal place comes before.  What the units do in their turn is left out.
-/

set_option autoImplicit false

namespace MacSim.Model

open MacSim.Computation

/-! ## The period of the clock -/

/-- Greatest common divisor of two integers, the first iteration of the loop unconditional.

SRCLINE: macsim.h:369-377 -/
def Clocks.gcd (a b : ℕ) : ℕ :=
  if _h : b = 0 then a
  else if a % b = 0 then b
  else Clocks.gcd b (a % b)
termination_by b
decreasing_by exact Nat.mod_lt _ (Nat.pos_of_ne_zero _h)

/-- Least common multiple of two integers.

SRCLINE: macsim.h:380-385 -/
def Clocks.lcm (a b : ℕ) : ℕ := a / gcd a b * b

/-! ## The domains -/

/-- The arrays of the domains.  The cores come first; `numSimCores` and the three indices after
it are the last level cache, the network, the memory controllers and the I/O device. -/
structure Clocks where
  numSimCores : ℕ
  clockLcm : ℕ
  clockInternal : ℕ
  domainFreq : ℕ → ℕ
  domainCount : ℕ → ℕ
  domainNext : ℕ → ℕ

namespace Clocks

def clockLlc (c : Clocks) : ℕ := c.numSimCores
def clockNoc (c : Clocks) : ℕ := c.numSimCores + 1
def clockMc (c : Clocks) : ℕ := c.numSimCores + 2
def clockIo (c : Clocks) : ℕ := c.numSimCores + 3

/-- The domains before the first cycle, for the frequencies of the array `m_domain_freq`.

SRCLINE: macsim.cc:868-891 -/
def start (numSimCores : ℕ) (domainFreq : ℕ → ℕ) : Clocks where
  numSimCores := numSimCores
  clockLcm := (List.range (3 + numSimCores)).foldl
    (fun period i => lcm period (domainFreq (i + 1))) (domainFreq 0)
  clockInternal := 0
  domainFreq := domainFreq
  domainCount := fun _ => 0
  domainNext := fun _ => 0

/-- A `double`. -/
def double (q : ℚ) : ℚ := nearest 53 q

/-- `static_cast<int>(1.0 * m_clock_lcm * m_domain_count[domain] / m_domain_freq[domain])`.

SRCLINE: macsim.cc:902-905 -/
def nextTime (clockLcm count freq : ℕ) : ℕ :=
  ⌊double (double (double clockLcm * count) / freq)⌋.toNat

/-- `GET_NEXT_CYCLE`.

SRCLINE: macsim.cc:902-905 -/
def getNextCycle (c : Clocks) (domain : ℕ) : Clocks :=
  let count := c.domainCount domain + 1
  { c with
    domainCount := Function.update c.domainCount domain count
    domainNext := Function.update c.domainNext domain
      (nextTime c.clockLcm count (c.domainFreq domain)) }

/-- The test in front of every unit's turn. -/
def due (c : Clocks) (domain : ℕ) : Bool := c.clockInternal == c.domainNext domain

/-- The end of a cycle: the internal clock advances, and at the end of its period all domains
start over.

SRCLINE: macsim.cc:1076-1082 -/
def advance (c : Clocks) : Clocks :=
  let c := { c with clockInternal := c.clockInternal + 1 }
  if c.clockInternal = c.clockLcm then
    { c with
      clockInternal := 0
      domainCount := fun i => if i < 4 + c.numSimCores then 0 else c.domainCount i
      domainNext := fun i => if i < 4 + c.numSimCores then 0 else c.domainNext i }
  else c

end Clocks

/-- The frequencies the domains get: a core that runs PTX code has the GPU's, any other core the
CPU's, and the other domains have their own.  `domainF` is the array `domain_f`.

SRCLINE: macsim.cc:868-886 -/
def domainFreq (numSimCores : ℕ) (ptx : ℕ → Bool) (domainF : ℕ → ℕ) (domain : ℕ) : ℕ :=
  if domain < numSimCores then
    if ptx domain then domainF 1 else domainF 0
  else domainF (domain - numSimCores + 2)

/-! ## The cycle -/

/-- The part of the simulator that decides which units run in a cycle. -/
structure Macsim where
  clocks : Clocks
  coreCycle : ℕ → ℕ
  simulationCycle : ℕ
  terminationCheck : ℕ → Bool
  terminationCount : ℕ

namespace Macsim

/-- The simulator before its first cycle, for the frequencies of the array `m_domain_freq`. -/
def start (numSimCores : ℕ) (domainFreq : ℕ → ℕ) : Macsim where
  clocks := Clocks.start numSimCores domainFreq
  coreCycle := fun _ => 0
  simulationCycle := 0
  terminationCheck := fun _ => false
  terminationCount := 0

/-- The simulator before its first cycle.

SRCLINE: macsim.cc:826-891 -/
def initClockDomain (numSimCores : ℕ) (ptx : ℕ → Bool) (domainF : ℕ → ℕ) : Macsim :=
  start numSimCores (domainFreq numSimCores ptx domainF)

/-- The turn of a unit outside the cores: it runs when its domain is due.  The list holds the
domains that have run in this cycle.

SRCLINE: macsim.cc:950-989 -/
def uncoreTurn (t : Macsim × List ℕ) (domain : ℕ) : Macsim × List ℕ :=
  if t.1.clocks.due domain then
    ({ t.1 with clocks := t.1.clocks.getNextCycle domain }, t.2 ++ [domain])
  else t

/-- The turn of a core.

SRCLINE: macsim.cc:992-1010 -/
def coreTurn (t : Macsim × List ℕ) (ii : ℕ) : Macsim × List ℕ :=
  if t.1.clocks.due ii then
    let m := { t.1 with clocks := t.1.clocks.getNextCycle ii }
    let m :=
      if m.terminationCheck ii = false then
        { m with
          terminationCheck := Function.update m.terminationCheck ii true
          terminationCount := m.terminationCount + 1 }
      else m
    ({ m with coreCycle := Function.update m.coreCycle ii (m.coreCycle ii + 1) }, t.2 ++ [ii])
  else t

/-- The turns of a cycle: the units outside the cores, then the cores from a rotating one on.

SRCLINE: macsim.cc:930-1010 -/
def turns (m : Macsim) : Macsim × List ℕ :=
  let n := m.clocks.numSimCores
  let pivot := m.coreCycle 0 + 1
  let t := uncoreTurn (m, []) m.clocks.clockIo
  let t := uncoreTurn t m.clocks.clockNoc
  let t := uncoreTurn t m.clocks.clockLlc
  let t := uncoreTurn t m.clocks.clockMc
  (List.range n).foldl (fun t kk => coreTurn t ((kk + pivot) % n)) t

/-- A single cycle.  Nothing happens when all cores have had a turn since the last check and
`stopped`, the rest of the termination test, holds: there is no active thread, the repetition is
done, or no core has run.  Otherwise the domains that have run are returned.

SRCLINE: macsim.cc:910-1085 -/
def runACycle (m : Macsim) (stopped : Bool) : Option (Macsim × List ℕ) :=
  if m.terminationCount = m.clocks.numSimCores ∧ stopped = true then none
  else
    let m :=
      if m.terminationCount = m.clocks.numSimCores then
        { m with terminationCount := 0, terminationCheck := fun _ => false }
      else m
    let t := m.turns
    some ({ t.1 with
      simulationCycle := t.1.simulationCycle + 1
      clocks := t.1.clocks.advance }, t.2)

/-- Any number of calls, with the value of the termination test for each.  The list pairs the
internal clock with each domain that has run at it; a call that returns 0 adds nothing. -/
def runCycles (m : Macsim) : List Bool → Macsim × List (ℕ × ℕ)
  | [] => (m, [])
  | stopped :: calls =>
    match m.runACycle stopped with
    | none => m.runCycles calls
    | some (m', ran) =>
      let (m'', log) := m'.runCycles calls
      (m'', ran.map (fun domain => (m.clocks.clockInternal, domain)) ++ log)

end Macsim

end MacSim.Model
