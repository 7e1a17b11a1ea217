import MacSim.Model.TraceReader

/-!
# Reading a trace with HMC instructions

With the HMC instructions enabled the CPU decoder gets its records from
`get_uops_from_traces_with_hmc_inst`.  When the record that is read ahead is a caller of the HMC
info table, the reader skips to the return and puts one generated instruction in place of what
lies between; the record at the return is kept in a cache of one record and comes next.

The statistic of removed instructions, which all threads of a core add to, is given from outside.
-/

set_option autoImplicit false

namespace MacSim.Model

/-- `HMC_Type`. -/
inductive HmcType where
  | none
  | casEqual16B
  | casZero16B
  | casGreater16B
  | casLess16B
  | add16B
  | add8B
  | addDual
  | swap
  | bitWr
  | and
  | nand
  | or
  | xor
  | fpAdd
  | compGreater
  | compLess
  | compEqual
  | hook
  | unhook
  | candidate
  | transBeg
  | transMid
  | transEnd
  deriving DecidableEq, Repr

/-- SRCLINE: hmc_types.h:93-141 -/
def hmcString2Type : String → HmcType
  | "HMC_CAS_equal_16B" => .casEqual16B
  | "HMC_CAS_zero_16B" => .casZero16B
  | "HMC_CAS_greater_16B" => .casGreater16B
  | "HMC_CAS_less_16B" => .casLess16B
  | "HMC_ADD_16B" => .add16B
  | "HMC_ADD_8B" => .add8B
  | "HMC_ADD_DUAL" => .addDual
  | "HMC_SWAP" => .swap
  | "HMC_BIT_WR" => .bitWr
  | "HMC_AND" => .and
  | "HMC_NAND" => .nand
  | "HMC_OR" => .or
  | "HMC_XOR" => .xor
  | "HMC_FP_ADD" => .fpAdd
  | "HMC_COMP_greater" => .compGreater
  | "HMC_COMP_less" => .compLess
  | "HMC_COMP_equal" => .compEqual
  | "HMC_CANDIDATE" => .candidate
  | "std::__detail::_List_node_base::_M_hook" => .hook
  | "std::__detail::_List_node_base::_M_unhook" => .unhook
  | "HMC_TRANS_BEG" => .transBeg
  | "HMC_TRANS_MID" => .transMid
  | "HMC_TRANS_END" => .transEnd
  | _ => .none

/-- `trace_info_cpu_s`, the raw trace format. -/
structure TraceInfoCpu where
  numReadRegs : ℕ
  numDestRegs : ℕ
  src : List ℕ
  dst : List ℕ
  cfType : ℕ
  hasImmediate : Bool
  opcode : ℕ
  hasSt : Bool
  isFp : Bool
  writeFlg : Bool
  numLd : ℕ
  size : ℕ
  ldVaddr1 : Addr
  ldVaddr2 : Addr
  stVaddr : Addr
  instructionAddr : Addr
  branchTarget : Addr
  memReadSize : ℕ
  memWriteSize : ℕ
  repDir : Bool
  actuallyTaken : Bool
  deriving DecidableEq

/-! ## The HMC info table -/

/-- `hmc_inst_s`. -/
structure HmcInst where
  callerPc : Addr
  funcPc : Addr
  retPc : Addr
  addrPc : Addr
  name : String
  cnt : ℕ
  deriving DecidableEq

/-- `m_hmc_info` and the keys of `m_hmc_info_ext`. -/
structure HmcInfo where
  info : Addr → Option HmcInst
  ext : Addr → Addr → Bool

namespace HmcInfo

/-- One line of the info file; `inst.cnt` of the line itself is not set.

SRCLINE: hmc_process.cc:72-83 -/
def addLine (t : HmcInfo) (inst : HmcInst) : HmcInfo where
  info := fun pc =>
    if pc = inst.callerPc then
      match t.info pc with
      | none => some { inst with cnt := 1 }
      | some old => some { old with cnt := (old.cnt + 1) % 2 ^ 16 }
    else t.info pc
  ext := fun caller ret => t.ext caller ret || decide (caller = inst.callerPc ∧ ret = inst.retPc)

/-- The table that `hmc_info_read` builds from the lines of the file.

SRCLINE: hmc_process.cc:45-90 -/
def read (lines : List HmcInst) : HmcInfo :=
  lines.foldl addLine ⟨fun _ => none, fun _ _ => false⟩

end HmcInfo

/-- `generate_hmc_inst` without the type; the fields that it does not set are not initialized.

SRCLINE: hmc_process.cc:151-175 -/
def generateHmcInst (callerPc hmcVaddr : Addr) (uninit : TraceInfoCpu) : TraceInfoCpu :=
  { uninit with
    opcode := 30
    numReadRegs := 1
    numDestRegs := 0
    src := uninit.src.set 0 14
    hasImmediate := false
    cfType := 0
    repDir := false
    hasSt := true
    numLd := 0
    memReadSize := 0
    memWriteSize := 2
    isFp := false
    ldVaddr1 := 0
    ldVaddr2 := 0
    stVaddr := hmcVaddr
    instructionAddr := callerPc
    actuallyTaken := false
    branchTarget := 0
    writeFlg := false }

/-! ## The reader -/

/-- The reader's knobs, the table of the process, and what is given from outside for the
conversion after so many: what `inst_extra` reads and the contents of the local records. -/
structure HmcKnobs where
  bufferSize : ℕ
  maxInsts : ℕ
  extraUops : List (TraceInfoCpu × Addr) → ℕ
  lines : List HmcInst
  instExtra : ℕ → ℕ
  uninit : ℕ → TraceInfoCpu

def HmcKnobs.toTraceKnobs (k : HmcKnobs) : TraceKnobs TraceInfoCpu where
  bufferSize := k.bufferSize
  maxInsts := k.maxInsts
  instAddr := TraceInfoCpu.instructionAddr
  extraUops := k.extraUops

/-- `thread_s` with what the HMC functions add.  `hmcTypes` are the marks of the records handed
to `convert_pinuop_to_t_uop`. -/
structure HmcThread extends TraceThread TraceInfoCpu where
  cachedInst : TraceInfoCpu
  hasCachedInst : Bool
  prevHmcType : HmcType
  nextHmcType : HmcType
  hmcTypes : List HmcType

namespace HmcThread

/-- SRCLINE: process_manager.cc:818-841, trace_read.cc:189-211 -/
def setup (file : List TraceInfoCpu) (junk : TraceInfoCpu) : HmcThread where
  toTraceThread := TraceThread.setup file junk
  cachedInst := junk
  hasCachedInst := false
  prevHmcType := .none
  nextHmcType := .none
  hmcTypes := []

/-- `read_trace` into the local `cur_trace_info`: `inst_read`, the record, and the state. -/
def readCur (k : HmcKnobs) (s : HmcThread) : Bool × TraceInfoCpu × HmcThread :=
  let r := s.toTraceThread.readTrace k.toTraceKnobs
  (r.1, r.2.next, { s with toTraceThread := { r.2 with next := s.next } })

/-- A record is the return of the instruction.

SRCLINE: hmc_process.cc:280-286 -/
def isReturn (t : HmcInfo) (inst : HmcInst) (instAddr : Addr) (cur : TraceInfoCpu) : Bool :=
  if inst.cnt > 1 then t.ext instAddr cur.instructionAddr
  else decide (cur.instructionAddr = inst.retPc)

/-- A record sets the target address of the instruction.

SRCLINE: hmc_process.cc:256-260, hmc_process.cc:270-274 -/
def targetVaddr (inst : HmcInst) (hmcVaddr : Addr) (cur : TraceInfoCpu) : Addr :=
  if cur.instructionAddr = inst.addrPc then cur.ldVaddr1 else hmcVaddr

/-- The loop that looks for the return; every iteration reads a record or ends the trace, and
there are at most so many.  The result is `inst_read`, the target address and the last record.

SRCLINE: hmc_process.cc:261-291 -/
def skipSpan (k : HmcKnobs) (t : HmcInfo) (inst : HmcInst) (instAddr : Addr) :
    ℕ → Addr → HmcThread → Option ((Bool × Addr × TraceInfoCpu) × HmcThread)
  | 0, _, _ => none
  | n + 1, hmcVaddr, s =>
    let r := s.readCur k
    if r.2.2.traceEnded then some ((r.1, hmcVaddr, r.2.1), r.2.2)
    else
      let hmcVaddr := targetVaddr inst hmcVaddr r.2.1
      if isReturn t inst instAddr r.2.1 then some ((r.1, hmcVaddr, r.2.1), r.2.2)
      else skipSpan k t inst instAddr n hmcVaddr r.2.2

/-- The next record is read ahead and the function that it calls is replaced.

SRCLINE: hmc_process.cc:228-330 -/
def readNext (k : HmcKnobs) (s : HmcThread) : Bool × HmcThread :=
  let t := HmcInfo.read k.lines
  let r := s.toTraceThread.readTrace k.toTraceKnobs
  let s' : HmcThread := { s with toTraceThread := r.2, nextHmcType := .none }
  match t.info s'.next.instructionAddr with
  | none => (r.1, s')
  | some inst =>
    if s'.traceEnded then (r.1, s')
    else
      match skipSpan k t inst s'.next.instructionAddr (s'.file.length + 1)
          (targetVaddr inst 0 s'.next) s' with
      | none => (r.1, s')
      | some (found, m) =>
        if m.traceEnded then (found.1, m)
        else
          (found.1, { m with
            next := generateHmcInst inst.callerPc found.2.1 (k.uninit s.converted.length)
            nextHmcType := hmcString2Type inst.name
            cachedInst := found.2.2
            hasCachedInst := true })

/-- SRCLINE: hmc_process.cc:216-345 -/
def readAhead (k : HmcKnobs) (s : HmcThread) : Bool × HmcThread :=
  if s.instFetched + k.instExtra s.converted.length < k.maxInsts then
    if s.hasCachedInst = false then s.readNext k
    else (true, { s with next := s.cachedInst, hasCachedInst := false, nextHmcType := .none })
  else (false, { s with traceEnded := true })

/-- SRCLINE: hmc_process.cc:347-393 -/
def convertPrev (k : HmcKnobs) (read : Bool) (s : HmcThread) : HmcThread :=
  { s with
    toTraceThread := s.toTraceThread.convertPrev k.toTraceKnobs read
    hmcTypes := s.hmcTypes ++ [s.prevHmcType]
    prevHmcType := s.nextHmcType }

/-- The next instruction. -/
def nextInst (k : HmcKnobs) (s : HmcThread) : HmcThread :=
  (s.readAhead k).2.convertPrev k (s.readAhead k).1

/-- `get_uops_from_traces_with_hmc_inst`.

SRCLINE: hmc_process.cc:190-447 -/
def getUop (k : HmcKnobs) (s : HmcThread) : HmcThread :=
  if s.fetchEnded then s
  else
    let m := if s.bom then s.nextInst k else s
    { m with toTraceThread := m.toTraceThread.sendUop }

/-- The instructions handed to the decoder, with their marks. -/
def delivered (s : HmcThread) : List (TraceInfoCpu × HmcType) :=
  (s.converted.map Prod.fst).zip s.hmcTypes

end HmcThread

end MacSim.Model
