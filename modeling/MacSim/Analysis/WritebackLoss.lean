import MacSim.Analysis.StepSpecs
import MacSim.Model.Constructed

/-!
# Write-backs in disabled levels

A level that is built but disabled has no cache, yet it has queues and is clocked.  A
write-back that reaches its fill queue is marked done there and freed, without a line to
make dirty: the data is lost.  In all other cases a write-back ends only after it has made
a line of an enabled cache dirty, or at a memory controller.  So no write-back is lost in
the runs in which no disabled level has one to fill.
-/

set_option autoImplicit false

namespace MacSim.Analysis

open MacSim.Model MacSim.Computation

variable {cfg : MemConfig} {s : Mem}

/-- A constructed system is `Fine`. -/
theorem Initial.fine {strict : Prop} (h : Mem.Initial cfg s) : Fine cfg strict s := by
  have hheld : ∀ k, ∀ r ∈ held s k, ∃ c, k = .free c ∧ IsEntry r := by
    intro k r hr
    cases k with
    | free c =>
        refine ⟨c, rfl, ?_⟩
        rw [held, h.mshrFreeList] at hr
        dsimp only at hr
        split at hr
        · obtain ⟨i, -, rfl⟩ := List.mem_map.mp hr
          trivial
        · simp at hr
    | pool => simp [held, h.memReqPool] at hr
    | merged p => simp [held, h.req, MemReq.fresh] at hr
    | queue q => simp [held, Mem.entries, h.queue] at hr
    | retry d => simp [held, h.retryQueue] at hr
    | net => simp [held, h.net] at hr
    | rx d => simp [held, h.rx] at hr
    | dram => simp [held, h.dram] at hr
  refine ⟨⟨?_, ?_, ?_, ?_, ?_⟩, ?_, fun _ => ⟨?_, ?_, ?_, ?_, ?_, h.cacheByPass, ?_⟩⟩
  · intro c i
    simp [books, card, h.req, MemReq.fresh, MemConfig.writeThrough]
  · intro n hn
    simp [books, h.nextPool] at hn
  · intro n hn
    simp [books, h.nextWb] at hn
  · intro c r hr
    simp [books, h.mshr] at hr
  · intro k r hr
    obtain ⟨c, rfl, hentry⟩ := hheld k r hr
    exact hentry
  · intro r _
    simp [h.req, MemReq.fresh]
  · intro n hn
    simp [h.nextWb] at hn
  · intro n hn
    simp [h.nextWb] at hn
  · intro n hn
    simp [h.nextWb] at hn
  · intro n hn
    simp [h.nextWb] at hn
  · simp [h.dram]
  · rw [h.log]
    trivial

/-- No disabled level that is clocked has a write-back to fill. -/
def FillsNoWb (cfg : MemConfig) (s : Mem) : Action → Prop
  | .cycle d false _ => (cfg.flags d).disable = true →
      ∀ r ∈ s.entries ⟨d, .fillQueue⟩, (s.req r).type ≠ .wb
  | _ => True

instance (cfg : MemConfig) (s : Mem) (a : Action) : Decidable (FillsNoWb cfg s a) := by
  unfold FillsNoWb
  split <;> infer_instance

/-- Every write-back that was marked done or freed was settled before. -/
structure WbKept (cfg : MemConfig) (s : Mem) : Prop where
  log : Accounted cfg s.log
  done : ∀ n < s.nextWb, (s.req (.wb n)).done = true → Settled cfg s.log (.wb n)

/-- Each step keeps what the functions rely on, and only adds to the log and the counters. -/
theorem step_fine {strict : Prop} {s' : Mem} {a : Action} (hf : Fine cfg strict s)
    (hmeets : strict → FillsNoWb cfg s a) (hstep : Mem.step cfg s a = some s') :
    Fine cfg strict s' ∧ Grows s s' := by
  by_cases ha : ∃ d pll acc, a = .cycle d pll acc
  · obtain ⟨d, pll, acc, rfl⟩ := ha
    cases pll with
    | true =>
        cases hstep
        have hm : MemMoves cfg (inside strict) s (Mem.tickDcu d s) := tickDcu_moves
        exact ⟨hm.fine hf, hm.grows⟩
    | false => exact runACycle_fine hf acc false hmeets s' hstep
  · have hm : MemMoves cfg (outside strict) s s' :=
      outside_moves hf (fun d pll acc heq => ha ⟨d, pll, acc, heq⟩) hstep
    exact ⟨hm.fine hf, hm.grows⟩

/-- Every run whose fills take no write-back keeps what the functions rely on. -/
theorem reach_fine (h : Mem.Reach cfg (FillsNoWb cfg) s) : Fine cfg True s := by
  induction h with
  | init h => exact Initial.fine h
  | step a _ hmeets hstep ih => exact (step_fine ih (fun _ => hmeets) hstep).1

/-- In the runs in which no disabled level has a write-back to fill, every write-back that
ends has made a line of an enabled cache dirty or has reached a memory controller. -/
theorem writebacks_kept (h : Mem.Reach cfg (FillsNoWb cfg) s) : WbKept cfg s := by
  have hwb := (reach_fine h).wb trivial
  exact ⟨hwb.log, fun n hn hd => hwb.log.settled (hwb.done n hn hd)⟩

/-! ## A kept and a lost write-back -/

/-- The way of a line from memory to the L1 cache over disabled or missing L2 and L3 caches
and a missing last level, hop by hop. -/
def fetchLine : List Action :=
  let hop (l : Level) : List Action := [Mem.clock l 0, Mem.clock l 0, Mem.clock l 0, .deliver 0]
  hop .l2 ++ [Mem.clock .l3 0] ++ hop .l3 ++ hop .llc ++
    [.dramReceive 0, .dramSend 0 true, .deliver 0] ++ hop .llc ++ hop .l3 ++
    [Mem.clock .l2 0, Mem.clock .l2 0]

/-- A load brings a line, a store makes it dirty, a load of another line evicts it, and the
write-back goes to the L2 cache. -/
def dirtyEviction : List Action :=
  [.access 0] ++ fetchLine ++ [.access 1, .access 2] ++ fetchLine ++
    [Mem.clock .l1 0, Mem.clock .l1 0, Mem.clock .l2 0, Mem.clock .l2 0]

/-- The uops of this run. -/
def dirtyEvictionUops : List Uop :=
  [Mem.memUop 0 .ld 64, Mem.memUop 0 .st 64, Mem.memUop 0 .ld 128]

/-- With an enabled L2 cache the write-back makes a line of it dirty before it is freed. -/
theorem dirtyEviction_kept : ∃ s, Mem.Reach (Mem.smallConfig .llcDecoupledNetwork 1)
    (FillsNoWb (Mem.smallConfig .llcDecoupledNetwork 1)) s ∧ Event.freed (.wb 0) ∈ s.log ∧
      WbKept (Mem.smallConfig .llcDecoupledNetwork 1) s := by
  have hrun : (Mem.runIf (Mem.smallConfig .llcDecoupledNetwork 1)
      (FillsNoWb (Mem.smallConfig .llcDecoupledNetwork 1))
      (Mem.small .llcDecoupledNetwork 1 dirtyEvictionUops) dirtyEviction).map (·.log.head?) =
        some (some (.freed (.wb 0))) := by
    decide +kernel
  obtain ⟨s, hs, hlog⟩ := Option.map_eq_some_iff.mp hrun
  have hreach := Mem.reach_runIf (.init (Mem.small_initial _ _ _)) hs
  exact ⟨s, hreach, List.mem_of_mem_head? hlog, writebacks_kept hreach⟩

/-- With a disabled L2 cache the same write-back is freed and has made nothing dirty. -/
theorem dirtyEviction_lost : ∃ s, Mem.Reachable (Mem.smallConfig .l2DecoupledNetwork 1) s ∧
    ¬ WbKept (Mem.smallConfig .l2DecoupledNetwork 1) s := by
  have hrun : (Mem.run (Mem.smallConfig .l2DecoupledNetwork 1)
      (Mem.small .l2DecoupledNetwork 1 dirtyEvictionUops) dirtyEviction).map (·.log) =
        some [.freed (.wb 0), .wbDone (.wb 0), .freed (.mshr 0 1), .completed (.mshr 0 1),
          .called (.mshr 0 1), .toDram (.mshr 0 1), .freed (.mshr 0 1), .completed (.mshr 0 1),
          .called (.mshr 0 1), .toDram (.mshr 0 1)] := by
    decide +kernel
  obtain ⟨s, hs, hlog⟩ := Option.map_eq_some_iff.mp hrun
  refine ⟨s, Mem.reach_runIf (.init (Mem.small_initial _ _ _)) hs, fun hkept => ?_⟩
  have hsettled := hkept.log
  rw [hlog] at hsettled
  have hfreed := hsettled.1 0 (.inr rfl)
  simp [Settled] at hfreed

end MacSim.Analysis
