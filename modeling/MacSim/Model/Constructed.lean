import MacSim.Model.MemSystem

/-!
# Constructed systems

What the constructors build, as a state, and how to run it for a while.  `runIf` is
executable, so that the state after a given sequence of actions can be computed; what it
computes is reached in the sense of `Reach`.

`smallConfig` is the smallest machine of an organisation: one slice of every shared level,
caches of a single line, two entries in every MSHR.
-/

set_option autoImplicit false

namespace MacSim.Model

namespace Mem

/-- A constructed system: every cache is empty, a disabled level has none, every clock is
zero.  The geometry of the caches, their ports and the uops come from outside.
SRCLINE: memory.cc:270-386, 1568-1697 -/
def construct (cfg : MemConfig) (geometry : DcuId → CacheParam) (icache : CacheParam)
    (port : CachePort) (uop : ℕ → Uop) : Mem :=
  { req := fun _ => MemReq.fresh
    mshr := fun _ => []
    mshrFreeList := fun c =>
      if c < cfg.numCore then (List.range cfg.mshrSize).map (ReqId.mshr c) else []
    memReqPool := []
    nextPool := 0
    nextWb := 0
    dcu := fun d =>
      { queue := fun _ => []
        retryQueue := []
        cycle := 0
        cache :=
          if (cfg.flags d).disable then none
          else some (Cache.new (geometry d) fun _ => (0, 0))
        port := fun _ => port }
    cycle := 0
    stopPrefetch := 0
    coreCycle := fun _ => 0
    simCycle := 0
    uop := uop
    frontend := fun _ =>
      { icache := Cache.new icache fun _ => (0, 0)
        lastTerminatedTid := 0
        uniqueScheduledThreadNum := 0
        fetchReadyAddr := fun _ => none }
    constCache := fun _ => Cache.new icache fun _ => (0, 0)
    textureCache := fun _ => Cache.new icache fun _ => (0, 0)
    net := []
    rx := fun _ => []
    dram := []
    log := [] }

/-- A memory system is constructed in an initial state. -/
theorem construct_initial {cfg : MemConfig} {geometry : DcuId → CacheParam} (icache : CacheParam)
    (port : CachePort) (uop : ℕ → Uop) (h : ∀ d, (geometry d).cacheByPass = false) :
    Initial cfg (construct cfg geometry icache port uop) where
  req := rfl
  mshr := rfl
  mshrFreeList := rfl
  memReqPool := rfl
  nextPool := rfl
  nextWb := rfl
  queue _ := rfl
  retryQueue _ := rfl
  cacheByPass := by
    intro d c hc
    simp only [construct] at hc
    split at hc
    · cases hc
    · obtain rfl := Option.some.inj hc
      exact h d
  net := rfl
  rx := rfl
  dram := rfl
  log := rfl

section

variable (cfg : MemConfig) (meets : Mem → Action → Prop) [∀ s a, Decidable (meets s a)]

/-- Several actions that all meet a condition. -/
def runIf (s : Mem) (actions : List Action) : Option Mem :=
  actions.foldlM (fun s a => if meets s a then step cfg s a else none) s

variable {cfg meets}

/-- A run whose steps are tested as it goes reaches what it yields. -/
theorem reach_runIf {s s' : Mem} {actions : List Action} (h : Reach cfg meets s)
    (hrun : runIf cfg meets s actions = some s') : Reach cfg meets s' := by
  induction actions generalizing s with
  | nil =>
      cases hrun
      exact h
  | cons a actions ih =>
      obtain ⟨t, ht, hrun⟩ := Option.bind_eq_some_iff.mp hrun
      dsimp only at ht
      split at ht
      · rename_i hmeets
        exact ih (h.step a hmeets ht) hrun
      · cases ht

end

/-- A weaker condition on the steps reaches more states. -/
theorem Reach.mono {cfg : MemConfig} {meets meets' : Mem → Action → Prop} {s : Mem}
    (h : Reach cfg meets s) (hmeets : ∀ s a, meets s a → meets' s a) : Reach cfg meets' s := by
  induction h with
  | init h => exact .init h
  | step a _ hm hstep ih => exact ih.step a (hmeets _ a hm) hstep

/-- Several actions. -/
abbrev run (cfg : MemConfig) (s : Mem) (actions : List Action) : Option Mem :=
  runIf cfg (fun _ _ => True) s actions

/-! ## The smallest machine of an organisation -/

/-- The configuration of the smallest machine.  The flags of levels that are never
initialised are those of a disabled level without neighbours. -/
def smallConfig (org : Organisation) (numCore : ℕ) : MemConfig where
  org := org
  numCore := numCore
  mshrSize := 2
  addr :=
    { numL3 := 1, numLlc := 1, dramNumMc := 1, l3NumSet := 1, l3LineSize := 64, llcNumSet := 1,
      llcAssoc := 1, llcLineSize := 64, llcNumBank := 1, dramRowbufferSize := 64,
      dramNumBanks := 1, dramInterleaveFactor := 64, defaultInterleaving := true,
      newInterleavingDiffGranularity := false }
  cacheKnobs := ⟨false, false, 0⟩
  knobs :=
    { heteroMemPriorityCpu := false, heteroMemPriorityGpu := false, computeCapability2 := false,
      useIncomingTidCidForWb := false, dcacheInfinitePort := true, perfectDcache := false,
      byteLevelAccess := false, heteroGpuCoreDisable := -10, simpleNoc := false }
  flags := org.flags fun _ => ⟨none, none, false, false, false, true, false⟩
  param _ := { latency := 0, banks := 1, lineSize := 64, accSim := false }
  applId _ _ := 0

/-- A cache of one line. -/
def oneLine : CacheParam :=
  { numSet := 1, assoc := 1, lineSize := 64, bankNum := 1, cacheByPass := false,
    enablePartition := false, numTiles := 1, interleaveFactor := 0 }

/-- A memory uop of a core. -/
def memUop (coreId : ℕ) (memType : MemType) (paddr : Addr) : Uop :=
  { coreId := coreId, threadId := 0, memType := memType, memSize := 4, pc := 0, paddr := paddr,
    state := .other, doneCycle := 0, parentUop := none, numChildUops := 0, numChildUopsDone := 0,
    bypassLlc := false, skipLlc := false }

/-- The smallest machine, with the uops its cores will execute. -/
def small (org : Organisation) (numCore : ℕ) (uops : List Uop) : Mem :=
  construct (smallConfig org numCore) (fun _ => oneLine) oneLine (CachePort.new 4 4 false)
    fun u => uops.getD u (memUop 0 .notMem 0)

/-- The small machine starts in an initial state. -/
theorem small_initial (org : Organisation) (numCore : ℕ) (uops : List Uop) :
    Initial (smallConfig org numCore) (small org numCore uops) :=
  construct_initial oneLine _ _ fun _ => rfl

/-- The clock of a level, with a network that accepts everything. -/
def clock (level : Level) (id : ℕ) : Action := .cycle ⟨level, id⟩ false fun _ => true

end Mem

end MacSim.Model
