import MacSim.Model.DcuCycle

/-!
# Runs of the memory system

The system is driven from outside: cores access their L1 caches and issue requests, every
cache level is clocked on its own, the network moves packets and the memory controllers
answer.  `Action` lists what can happen next and `step` what it does.  The network and the
controllers are left open: a packet that was accepted arrives at its destination at some
time, in any order, and a controller returns a request, frees a write-back, or drops a
prefetch, whenever it likes.

`Reach` is a run from a constructed system in which every step meets a condition.
-/

set_option autoImplicit false

namespace MacSim.Model

/-- What can happen next. -/
inductive Action where
  /-- a core accesses its L1 cache for a uop -/
  | access (u : ℕ)
  /-- an instruction cache, a read-only cache or a prefetcher asks for a line -/
  | request (a : Mem.ReqArgs)
  /-- the pipeline writes a uop -/
  | setUop (u : ℕ) (x : Uop)
  /-- the clock of a cache level, with the answers of the network -/
  | cycle (d : DcuId) (pllLock : Bool) (accept : ReqId → Bool)
  /-- the clocks of `memory_c`, of a core and of the simulation -/
  | tick
  | coreTick (core : ℕ)
  | simTick
  /-- a packet reaches the receive buffer of its destination -/
  | deliver (i : ℕ)
  /-- a memory controller takes the front of its receive buffer -/
  | dramReceive (mc : ℕ)
  /-- a memory controller works on a request -/
  | dramAdvance (i : ℕ) (state : MemReqState) (rdyCycle : Counter)
  /-- a memory controller offers an answer to the network -/
  | dramSend (i : ℕ) (accept : Bool)
  /-- a memory controller frees a write-back or a prefetch -/
  | dramFree (i : ℕ)
  /-- a line is invalidated in one cache -/
  | invalidate (d : DcuId) (addr : Addr)

namespace Mem

/-- What one action does; `none` when it is not possible or when an assertion fails. -/
def step (cfg : MemConfig) (s : Mem) : Action → Option Mem
  | .access u => if (s.uop u).coreId < cfg.numCore then access cfg u s else none
  | .request a =>
      if a.coreId < cfg.numCore ∧ a.type ≠ .wb then (s.newMemReq cfg a).map (·.1) else none
  | .setUop u x => some { s with uop := Function.update s.uop u x }
  | .cycle d pllLock accept => runACycle cfg accept pllLock d s
  | .tick => some { s with cycle := s.cycle + 1 }
  | .coreTick c =>
      some { s with coreCycle := Function.update s.coreCycle c (s.coreCycle c + 1) }
  | .simTick => some { s with simCycle := s.simCycle + 1 }
  | .deliver i =>
      (s.net[i]?).map fun p =>
        { s with
          net := s.net.eraseIdx i
          rx := Function.update s.rx p.1 (s.rx p.1 ++ [p.2]) }
  | .dramReceive mc =>
      match s.rx ⟨.mc, mc⟩ with
      | [] => none
      | r :: rest =>
          some { (s.modReq r fun req => { req with state := .dramStart }).record (.toDram r) with
            rx := Function.update s.rx ⟨.mc, mc⟩ rest
            dram := s.dram ++ [r] }
  | .dramAdvance i state rdyCycle =>
      (s.dram[i]?).bind fun r =>
        if state = .dramCmd ∨ state = .dramData ∨ state = .dramDone then
          some (s.modReq r fun req => { req with state := state, rdyCycle := rdyCycle })
        else none
  | .dramSend i accept =>
      (s.dram[i]?).map fun r =>
        let s := s.modReq r fun req => { req with msgType := .fill }
        if accept then
          { s with
            dram := s.dram.eraseIdx i
            net := s.net ++ [(⟨.llc, (s.req r).cacheId .llc⟩, r)] }
        else s
  | .dramFree i =>
      (s.dram[i]?).bind fun r =>
        if (s.req r).type = .wb ∨ (s.req r).type = .dprf then
          freeReq (wrapper cfg (s.fuel cfg)) (s.req r).coreId r
            { s with dram := s.dram.eraseIdx i }
        else none
  | .invalidate d addr =>
      (s.dcu d).cache.map fun c => s.setCache d (c.invalidateCacheLine addr)

/-- The state after construction: every entry is free, every list is empty, and no cache
bypasses.  Caches, ports, clocks, uops and frontends are arbitrary otherwise.
SRCLINE: memory.cc:1568-1697 -/
structure Initial (cfg : MemConfig) (s : Mem) : Prop where
  req : s.req = fun _ => MemReq.fresh
  mshr : s.mshr = fun _ => []
  mshrFreeList : s.mshrFreeList = fun c =>
    if c < cfg.numCore then (List.range cfg.mshrSize).map (ReqId.mshr c) else []
  memReqPool : s.memReqPool = []
  nextPool : s.nextPool = 0
  nextWb : s.nextWb = 0
  queue : ∀ d, (s.dcu d).queue = fun _ => []
  retryQueue : ∀ d, (s.dcu d).retryQueue = []
  cacheByPass : ∀ d, ∀ c ∈ (s.dcu d).cache, c.param.cacheByPass = false
  net : s.net = []
  rx : s.rx = fun _ => []
  dram : s.dram = []
  log : s.log = []

/-- The states of the runs whose steps all meet a condition on the state before the step and
the action. -/
inductive Reach (cfg : MemConfig) (meets : Mem → Action → Prop) : Mem → Prop
  | init {s : Mem} (h : Initial cfg s) : Reach cfg meets s
  | step {s s' : Mem} (a : Action) (h : Reach cfg meets s) (hmeets : meets s a)
      (hstep : step cfg s a = some s') : Reach cfg meets s'

/-- The states of all runs. -/
abbrev Reachable (cfg : MemConfig) : Mem → Prop := Reach cfg fun _ _ => True

end Mem

end MacSim.Model
