import Mathlib.Logic.Function.Basic
import Mathlib.Order.WithBot
import Mathlib.Order.Lattice.Nat
import MacSim.Model.DepMap

/-!
# Fetching branches

`frontend_c::process_ifetch` fetches a group of uops of one thread, predicts its branches and
stalls the thread while a misprediction is outstanding: fetching a mispredicted branch sets the
recovery cycle of the thread to infinity, executing it sets a cycle shortly after.  The two
cycle variables of a thread are tested on entry only.

The direction predictor is an argument, as the class `bp_dir_base_c` is abstract; `gshare` is
the one that the simulator uses.  The target predictor is not modelled: whether it missed is
part of the input.  A uop is kept with the data that the predictors write into it; the objects
are recycled, so that what a predictor left in an object stays there until it is written again.
`MAX_CTR` stands for a cycle that the clock does not reach.
-/

set_option autoImplicit false

namespace MacSim.Model

/-- `Cf_Type`.
SRCLINE: uop.h:486-498 -/
inductive CfType where
  | notCf | br | cbr | call | ibr | icall | ico | ret | mite
  deriving DecidableEq, Repr

/-- The uop as the trace reader gives it, and whether the target predictor would miss it. -/
structure BranchUop where
  cfType : CfType
  pc : Addr
  dir : Bool
  targMiss : Bool
  deriving DecidableEq, Repr

/-- A direction predictor with states `σ` that leaves data `ι` in the uops it predicts. -/
structure BpDir (σ ι : Type) where
  pred : σ → BranchUop → Bool × σ × ι
  update : σ → BranchUop → ι → σ
  recover : σ → ι → σ

/-- The knobs of the front end.  `noFetchBr` is the policy of a GPU core not to fetch behind a
branch. -/
structure FetchKnobs where
  width : ℕ
  useBranchPrediction : Bool
  noFetchBr : Bool
  perfectBp : Bool
  enableBtb : Bool
  extraRecoveryCycles : ℕ
  deriving DecidableEq, Repr

/-- A uop that was fetched, with its object and thread.  `info` is what the predictor left in
it, `updated` what `update` read of it and `resolved` the recovery cycle that `br_exec` set. -/
structure BranchEntry (ι : Type) where
  uop : UopPtr
  tid : ℕ
  trace : BranchUop
  fetchCycle : ℕ
  btbMiss : Bool
  mispredicted : Bool
  info : Option ι
  executed : Bool
  retired : Bool
  updated : Option ι
  resolved : Option ℕ

/-- The front end of a core.  `info` is the predictors' part of the uop objects, `log` every
uop that was pushed into the frontend queue, in order. -/
structure FrontEnd (σ ι : Type) where
  bp : σ
  info : UopPtr → ι
  recoveryCycle : ℕ → WithTop ℕ
  redirectCycle : ℕ → WithTop ℕ
  cycle : ℕ
  log : List (BranchEntry ι)

namespace FrontEnd

variable {σ ι : Type}

/-- The predictor is asked for this kind of branch. -/
def predicts : CfType → Bool
  | .br | .cbr => true
  | _ => false

/-- The part of `predict_bpu` behind the direction predictor.
SRCLINE: frontend.cc:805-822 -/
def mispredicts (k : FetchKnobs) (wrongDir btbMiss : Bool) : Bool :=
  let mispredicted := wrongDir || btbMiss
  let mispredicted :=
    if k.useBranchPrediction then mispredicted else if k.noFetchBr then false else mispredicted
  if k.perfectBp then false else mispredicted

/-- `btb_access` and `predict_bpu` for a new uop in an object.
SRCLINE: frontend.cc:510-562, 770-855 -/
def predictBpu (k : FetchKnobs) (d : BpDir σ ι) (s : FrontEnd σ ι) (tid : ℕ) (p : UopPtr)
    (u : BranchUop) : FrontEnd σ ι × BranchEntry ι :=
  let btbMiss := k.enableBtb && u.targMiss
  let entry : BranchEntry ι :=
    { uop := p, tid := tid, trace := u, fetchCycle := s.cycle, btbMiss := btbMiss
      mispredicted := mispredicts k false btbMiss, info := none, executed := false
      retired := false, updated := none, resolved := none }
  if predicts u.cfType then
    let (predDir, bp, info) := d.pred s.bp u
    ({ s with bp := bp, info := Function.update s.info p info },
      { entry with mispredicted := mispredicts k (predDir != u.dir) btbMiss, info := some info })
  else (s, entry)

/-- One uop of the fetch loop.  The pool does not hand out an object that is in use.
SRCLINE: frontend.cc:454-570 -/
def fetchUop (k : FetchKnobs) (d : BpDir σ ι) (s : FrontEnd σ ι) (tid : ℕ) (p : UopPtr)
    (u : BranchUop) : Option (FrontEnd σ ι) :=
  if s.log.any fun e => e.uop == p && !e.retired then none
  else if u.cfType = .notCf then
    let entry : BranchEntry ι :=
      { uop := p, tid := tid, trace := u, fetchCycle := s.cycle, btbMiss := false
        mispredicted := false, info := none, executed := false, retired := false
        updated := none, resolved := none }
    some { s with log := s.log ++ [entry] }
  else
    let (s, entry) := s.predictBpu k d tid p u
    let s :=
      if entry.mispredicted then
        { s with recoveryCycle := Function.update s.recoveryCycle tid ⊤ }
      else if entry.btbMiss then
        { s with redirectCycle := Function.update s.redirectCycle tid ⊤ }
      else s
    some { s with log := s.log ++ [entry] }

/-- The fetch loop: `space` is the room in the frontend queue, `fetched` what the call has
pushed, and the list the uops that the trace has to offer.
SRCLINE: frontend.cc:454-577 -/
def fetchLoop (k : FetchKnobs) (d : BpDir σ ι) (tid : ℕ) :
    ℕ → ℕ → List (UopPtr × BranchUop) → FrontEnd σ ι → Option (FrontEnd σ ι)
  | 0, _, _, s => some s
  | _ + 1, _, [], s => some s
  | space + 1, fetched, (p, u) :: rest, s => do
      let s ← s.fetchUop k d tid p u
      if k.width ≤ fetched + 1 then some s else fetchLoop k d tid space (fetched + 1) rest s

/-- The thread waits for a recovery or a redirection.
SRCLINE: frontend.cc:394-399 -/
def stalled (s : FrontEnd σ ι) (tid : ℕ) : Bool :=
  decide ((s.cycle : WithTop ℕ) < s.recoveryCycle tid) ||
    decide ((s.cycle : WithTop ℕ) < s.redirectCycle tid)

/-- `process_ifetch` with a hit in the instruction cache.
SRCLINE: frontend.cc:344-581 -/
def processIfetch (k : FetchKnobs) (d : BpDir σ ι) (s : FrontEnd σ ι) (tid space : ℕ)
    (uops : List (UopPtr × BranchUop)) : Option (FrontEnd σ ι) :=
  if s.stalled tid then some s else fetchLoop k d tid space 0 uops s

/-- `br_exec` on a conditional branch: the predictor learns.
SRCLINE: exec.cc:684-702 -/
def updateDir (d : BpDir σ ι) (s : FrontEnd σ ι) (e : BranchEntry ι) :
    FrontEnd σ ι × BranchEntry ι :=
  if e.trace.cfType = .cbr then
    ({ s with bp := d.update s.bp e.trace (s.info e.uop) },
      { e with updated := some (s.info e.uop) })
  else (s, e)

/-- `br_exec` on a mispredicted branch: the predictor recovers, the recovery cycle is set.
SRCLINE: exec.cc:704-719 -/
def recoverDir (k : FetchKnobs) (d : BpDir σ ι) (s : FrontEnd σ ι) (e : BranchEntry ι) :
    FrontEnd σ ι × BranchEntry ι :=
  if e.mispredicted then
    let cycle := s.cycle + 1 + k.extraRecoveryCycles
    ({ s with
        bp := d.recover s.bp (s.info e.uop)
        recoveryCycle := Function.update s.recoveryCycle e.tid (cycle : WithTop ℕ) },
      { e with resolved := some cycle })
  else (s, e)

/-- `br_exec` on a branch whose target was missed: the redirect cycle is set.
SRCLINE: exec.cc:721-736 -/
def redirect (k : FetchKnobs) (s : FrontEnd σ ι) (e : BranchEntry ι) : FrontEnd σ ι :=
  if e.btbMiss then
    { s with
      redirectCycle := Function.update s.redirectCycle e.tid
        ((s.cycle + 1 + k.extraRecoveryCycles : ℕ) : WithTop ℕ) }
  else s

/-- `exec_c::br_exec` of a uop.
SRCLINE: exec.cc:683-741 -/
def brExec (k : FetchKnobs) (d : BpDir σ ι) (s : FrontEnd σ ι) (e : BranchEntry ι) :
    FrontEnd σ ι × BranchEntry ι :=
  let (s, e) := s.updateDir d e
  let (s, e) := s.recoverDir k d e
  (s.redirect k e, e)

/-- `exec_c::exec` accepts the uop at a position of the log.
SRCLINE: exec.cc:672-679 -/
def exec (k : FetchKnobs) (d : BpDir σ ι) (s : FrontEnd σ ι) (n : ℕ) : Option (FrontEnd σ ι) :=
  match s.log[n]? with
  | none => none
  | some e =>
      if e.executed then none
      else
        let (s, e) := if e.trace.cfType = .notCf then (s, e) else s.brExec k d e
        some { s with log := s.log.set n { e with executed := true } }

/-- A uop that was executed leaves the core, its object goes back to the pool. -/
def retire (s : FrontEnd σ ι) (n : ℕ) : Option (FrontEnd σ ι) :=
  match s.log[n]? with
  | none => none
  | some e =>
      if e.executed && !e.retired then
        some { s with log := s.log.set n { e with retired := true } }
      else none

/-- One action of a core. -/
inductive Act where
  /-- a call of `process_ifetch` -/
  | fetch (tid space : ℕ) (uops : List (UopPtr × BranchUop))
  /-- a uop executes -/
  | exec (n : ℕ)
  /-- a uop retires -/
  | retire (n : ℕ)
  /-- the clock advances -/
  | tick
  deriving DecidableEq, Repr

/-- One action; `none` is an action that the core does not offer. -/
def step (k : FetchKnobs) (d : BpDir σ ι) (s : FrontEnd σ ι) : Act → Option (FrontEnd σ ι)
  | .fetch tid space uops => s.processIfetch k d tid space uops
  | .exec n => s.exec k d n
  | .retire n => s.retire n
  | .tick => some { s with cycle := s.cycle + 1 }

/-- A run of actions. -/
def run (k : FetchKnobs) (d : BpDir σ ι) (s : FrontEnd σ ι) (acts : List Act) :
    Option (FrontEnd σ ι) :=
  acts.foldlM (step k d) s

/-- A core whose threads have not fetched yet, with whatever the objects hold.
SRCLINE: core.cc:642-643 -/
def new (bp : σ) (info : UopPtr → ι) : FrontEnd σ ι :=
  { bp := bp, info := info, recoveryCycle := fun _ => 0, redirectCycle := fun _ => 0
    cycle := 0, log := [] }

end FrontEnd

/-! ## gshare -/

/-- The knobs of `bp_gshare_c`. -/
structure GshareKnobs where
  histLength : ℕ
  phtCtrBits : ℕ
  deriving DecidableEq, Repr

/-- `bp_gshare_c`: the pattern history table and the global history. -/
structure Gshare where
  pht : BitVec 32 → BitVec 8
  globalHist : BitVec 32

/-- What `pred` leaves in a uop: the history it used and the one to recover to. -/
structure GshareInfo where
  predGlobalHist : BitVec 32
  globalHist : BitVec 32
  deriving DecidableEq, Repr

namespace Gshare

/-- A direction in the most recent position of a history. -/
def dirBit (dir : Bool) : BitVec 32 := BitVec.ofNat 32 dir.toNat <<< 31

/-- `COOK_HIST_BITS(hist, len, 0) ^ COOK_ADDR_BITS(addr, len, 2)`.
SRCLINE: bp_gshare.cc:51-54, 72-76 -/
def phtIndex (k : GshareKnobs) (hist : BitVec 32) (addr : Addr) : BitVec 32 :=
  (hist >>> (32 - k.histLength)) ^^^
    (((addr.truncate 32) >>> 2) &&& BitVec.ofNat 32 (2 ^ k.histLength - 1))

/-- `bp_gshare_c::pred`.
SRCLINE: bp_gshare.cc:69-94 -/
def pred (k : GshareKnobs) (g : Gshare) (u : BranchUop) : Bool × Gshare × GshareInfo :=
  let entry := g.pht (phtIndex k g.globalHist u.pc)
  let dir := entry.getLsbD 1
  let hist := g.globalHist >>> 1
  (dir, { g with globalHist := hist ||| dirBit dir },
    { predGlobalHist := g.globalHist, globalHist := hist ||| dirBit u.dir })

/-- `bp_gshare_c::update`.
SRCLINE: bp_gshare.cc:97-121 -/
def update (k : GshareKnobs) (g : Gshare) (u : BranchUop) (info : GshareInfo) : Gshare :=
  let index := phtIndex k info.predGlobalHist u.pc
  let entry := g.pht index
  let entry :=
    if u.dir then (if entry.toNat = 2 ^ k.phtCtrBits - 1 then entry else entry + 1)
    else (if entry.toNat = 0 then entry else entry - 1)
  { g with pht := Function.update g.pht index entry }

/-- `bp_gshare_c::recover`.
SRCLINE: bp_gshare.cc:124-127 -/
def recover (g : Gshare) (info : GshareInfo) : Gshare := { g with globalHist := info.globalHist }

/-- The predictor. -/
def bpDir (k : GshareKnobs) : BpDir Gshare GshareInfo where
  pred := pred k
  update := update k
  recover := recover

/-- The constructor of `bp_gshare_c`.
SRCLINE: bp_gshare.cc:61-66, bp.cc:91 -/
def new (k : GshareKnobs) : Gshare where
  pht := fun _ => BitVec.ofNat 8 (2 ^ k.phtCtrBits - 1)
  globalHist := 0

end Gshare

end MacSim.Model
