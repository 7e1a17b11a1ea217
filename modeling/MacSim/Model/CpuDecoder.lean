import MacSim.Model.HmcReader
import MacSim.Model.BranchFetch

/-!
# The CPU decoder

`cpu_decoder_c::convert_pinuop_to_t_uop` turns a record of a CPU trace into uops, which it writes
into `m_trace_uop_array`.  The objects of the array are used again for every instruction, so a
field that is not written keeps what an earlier instruction left there.  The static part of each
uop goes into the hash table of decoded instructions under the key `(pc << 3) + index` and is read
back when the instruction comes again.  A string instruction repeats its uops, four bytes at a
time.
-/

set_option autoImplicit false

namespace MacSim.Model

/-! ## Records -/

/-- `REP_MOV_MEM_SIZE_MAX`. -/
def repMovMemSizeMax : ℕ := 4

/-- `MAX_PUP`, the length of `m_trace_uop_array`. -/
def maxPup : ℕ := 256

/-- `MAX_SRCS`. -/
def maxSrcs : ℕ := 9

/-- `MAX_DESTS`. -/
def maxDests : ℕ := 6

/-- `TR_REG_TMP0`. -/
def trRegTmp0 : ℕ := 256

/-! The values of `CPU_OPCODE_ENUM` that the decoder tells apart. -/

namespace CpuOpcode

def dataxfer : ℕ := 30
def interrupt : ℕ := 40
def io : ℕ := 41
def misc : ℕ := 47
def prefetch : ℕ := 56
def semaphore : ℕ := 69
def stringop : ℕ := 76
def syscall : ℕ := 78
def sysret : ℕ := 79
def system : ℕ := 80
def prefetchNta : ℕ := 100
def prefetchT0 : ℕ := 101
def prefetchT1 : ℕ := 102
def prefetchT2 : ℕ := 103

end CpuOpcode

/-- A record of the trace with the address of the instruction that comes next.  Register numbers
and sizes are eight bits wide and the register lists are arrays.

SRCLINE: trace_read.h:77-102 -/
structure CpuRecord extends TraceInfoCpu where
  instructionNextAddr : Addr
  src_length : src.length = maxSrcs
  dst_length : dst.length = maxDests
  src_lt : ∀ reg ∈ src, reg < 256
  dst_lt : ∀ reg ∈ dst, reg < 256
  memReadSize_lt : memReadSize < 256
  memWriteSize_lt : memWriteSize < 256

/-- What the decoder can write into `m_op_type`: `tabled` are the values of the opcode tables. -/
inductive CpuOpType where
  | inv | nop | cf | imem | fmem | fullFence
  | tabled (code : ℕ)
  deriving DecidableEq, Repr

/-- The values of `Bar_Type` that the decoder writes. -/
inductive CpuBarType where
  | notBar | barFetch
  deriving DecidableEq, Repr

/-- What a uop stands for in its instruction.  This is no field of the source: it is fixed where
the uop is created, and nothing reads it. -/
inductive UopPart where
  | load (second : Bool)
  | alu | store | branch | fence | nop
  deriving DecidableEq, Repr

/-- The type of a branch from the value in the record.

SRCLINE: trace_read_cpu.cc:533-534 -/
def CfType.ofPin : ℕ → CfType
  | 0 => .notCf
  | 1 => .br
  | 2 => .cbr
  | 3 => .call
  | 4 => .ibr
  | 5 => .icall
  | 6 => .ico
  | 7 => .ret
  | _ => .ico

/-- `trace_uop_s`, with `m_info` as the key of the entry; `srcs` and `dests` are the arrays as far
as they were last written.

SRCLINE: trace_read.h:232-272 -/
structure CpuUop where
  opcode : ℕ
  opType : CpuOpType
  memType : MemType
  cfType : CfType
  barType : CpuBarType
  numDestRegs : ℕ
  numSrcRegs : ℕ
  memSize : ℕ
  instSize : ℕ
  addr : Addr
  srcs : List ℕ
  dests : List ℕ
  va : Addr
  actualTaken : Bool
  target : Addr
  npc : Addr
  pin2ndMem : Bool
  info : Option Addr
  repUopNum : ℕ
  eom : Bool
  aluUop : Bool
  activeMask : BitVec 32
  takenMask : BitVec 32
  reconvergeAddr : Addr
  mulMemUops : Bool
  part : UopPart
  deriving DecidableEq

namespace CpuUop

/-- `trace_uop_s()`.

SRCLINE: trace_read.cc:93-119 -/
def new : CpuUop where
  opcode := 0
  opType := .inv
  memType := .notMem
  cfType := .notCf
  barType := .notBar
  numDestRegs := 0
  numSrcRegs := 0
  memSize := 0
  instSize := 0
  addr := 0
  srcs := []
  dests := []
  va := 0
  actualTaken := false
  target := 0
  npc := 0
  pin2ndMem := false
  info := none
  repUopNum := 0
  eom := false
  aluUop := false
  activeMask := 0
  takenMask := 0
  reconvergeAddr := 0
  mulMemUops := false
  part := .nop

/-- The registers that the uop reads. -/
def reads (u : CpuUop) : List ℕ :=
  u.srcs.take u.numSrcRegs

/-- The registers that the uop writes. -/
def writes (u : CpuUop) : List ℕ :=
  u.dests.take u.numDestRegs

end CpuUop

/-- `inst_info_s` with its `table_info_s` and `trace_info_sc_s`. -/
structure InstInfo where
  opType : CpuOpType
  memType : MemType
  cfType : CfType
  barType : CpuBarType
  numDestRegs : ℕ
  numSrcRegs : ℕ
  memSize : ℕ
  addr : Addr
  instSize : ℕ
  srcs : List ℕ
  dests : List ℕ
  secondMem : Bool
  numUop : ℕ
  part : UopPart
  deriving DecidableEq

/-- The opcode tables, the knobs and `m_hmc_fence_info` of the process. -/
structure CpuDecodeKnobs where
  intUopTable : ℕ → CpuOpType
  fpUopTable : ℕ → CpuOpType
  enableHmcFence : Bool
  enableHmcDoubleFence : Bool
  hmcFenceInfo : List Addr
  memSizeAmp : ℕ

/-- `REP_MOV_MEM_SIZE_MAX_NEW`. -/
def CpuDecodeKnobs.repMovMemSizeMaxNew (k : CpuDecodeKnobs) : ℕ :=
  max repMovMemSizeMax (k.memSizeAmp * 4)

/-- The hash table of decoded instructions of the process and `m_trace_uop_array` of the thread. -/
structure DecodeState where
  table : Addr → Option InstInfo
  slots : ℕ → CpuUop

/-- Nothing has been decoded yet. -/
def DecodeState.new : DecodeState :=
  ⟨fun _ => none, fun _ => CpuUop.new⟩

/-! ## What an instruction needs -/

/-- The type of a load.

SRCLINE: trace_read_cpu.cc:360-390 -/
def loadMemType (opcode : ℕ) : MemType :=
  if opcode = CpuOpcode.prefetchNta then .swprefNta
  else if opcode = CpuOpcode.prefetchT0 then .swprefT0
  else if opcode = CpuOpcode.prefetchT1 then .swprefT1
  else if opcode = CpuOpcode.prefetchT2 then .swprefT2
  else if opcode = CpuOpcode.prefetch then .pf
  else .ld

namespace CpuRecord

/-- `write_dest_reg`: the loads themselves write the destination registers.

SRCLINE: trace_read_cpu.cc:470-472 -/
def writeDestReg (r : CpuRecord) : Bool :=
  decide (r.numLd ≠ 0 ∧ r.opcode = CpuOpcode.dataxfer)

/-- `inst_has_ld_uop`.

SRCLINE: trace_read_cpu.cc:474-476 -/
def instHasLdUop (r : CpuRecord) : Bool :=
  decide (r.numLd ≠ 0 ∧ loadMemType r.opcode = .ld)

/-- `inst_has_ALU_uop`.

SRCLINE: trace_read_cpu.cc:480-500 -/
def instHasAluUop (r : CpuRecord) : Bool :=
  decide (r.numDestRegs ≠ 0) && !r.writeDestReg

/-- `tmp_reg_needed`.

SRCLINE: trace_read_cpu.cc:482-484, 507, 530 -/
def tmpRegNeeded (r : CpuRecord) : Bool :=
  r.instHasLdUop && (r.instHasAluUop || r.hasSt || decide (r.cfType ≠ 0))

/-- The key of the uop with number `ii`.

SRCLINE: trace_read_cpu.cc:328, 636 -/
def key (r : CpuRecord) (ii : ℕ) : Addr :=
  (r.instructionAddr <<< 3) + BitVec.ofNat 64 ii

end CpuRecord

/-! ## Creation of the static uops -/

/-- The array while uops are created, and `num_uop`. -/
structure UopArray where
  slots : ℕ → CpuUop
  num : ℕ

namespace UopArray

/-- `trace_uop[num_uop++]` written by `f`. -/
def push (a : UopArray) (f : CpuUop → CpuUop) : UopArray where
  slots := Function.update a.slots a.num (f (a.slots a.num))
  num := a.num + 1

/-- The existing uops shifted by one, and the object that is free for the next one in front of
them, written by `f`.

SRCLINE: trace_read_cpu.cc:588-594 -/
def pushFront (a : UopArray) (f : CpuUop → CpuUop) : UopArray where
  slots := fun i =>
    if i = 0 then f (a.slots a.num) else if i ≤ a.num then a.slots (i - 1) else a.slots i
  num := a.num + 1

/-- The last uop does not end the instruction.

SRCLINE: trace_read_cpu.cc:610 -/
def clearLast (a : UopArray) : UopArray where
  slots := Function.update a.slots (a.num - 1) { a.slots (a.num - 1) with eom := false }
  num := a.num

end UopArray

/-- A load: the second one reads the second address.

SRCLINE: trace_read_cpu.cc:357-468 -/
def createLoad (r : CpuRecord) (second : Bool) (u : CpuUop) : CpuUop :=
  { u with
    opcode := r.opcode
    memType := loadMemType r.opcode
    cfType := .notCf
    opType := if r.isFp then .fmem else .imem
    barType := .notBar
    numDestRegs := if r.opcode = CpuOpcode.dataxfer then r.numDestRegs else 0
    numSrcRegs := r.numReadRegs
    pin2ndMem := second
    eom := false
    aluUop := false
    instSize := r.size
    mulMemUops := r.hasImmediate
    part := .load second }

/-- The uop that writes the destination registers.

SRCLINE: trace_read_cpu.cc:481-499 -/
def createAlu (k : CpuDecodeKnobs) (r : CpuRecord) (u : CpuUop) : CpuUop :=
  { u with
    opcode := r.opcode
    memType := .notMem
    cfType := .notCf
    opType := if r.isFp then k.fpUopTable r.opcode else k.intUopTable r.opcode
    barType := .notBar
    numSrcRegs := r.numReadRegs
    numDestRegs := r.numDestRegs
    pin2ndMem := false
    eom := false
    aluUop := true
    part := .alu }

/-- SRCLINE: trace_read_cpu.cc:505-522 -/
def createStore (r : CpuRecord) (u : CpuUop) : CpuUop :=
  { u with
    memType := .st
    opcode := r.opcode
    cfType := .notCf
    opType := if r.isFp then .fmem else .imem
    barType := .notBar
    numSrcRegs := r.numReadRegs
    numDestRegs := 0
    pin2ndMem := false
    eom := false
    aluUop := false
    instSize := r.size
    mulMemUops := r.hasImmediate
    part := .store }

/-- SRCLINE: trace_read_cpu.cc:527-542 -/
def createBranch (r : CpuRecord) (u : CpuUop) : CpuUop :=
  { u with
    memType := .notMem
    cfType := CfType.ofPin r.cfType
    opType := .cf
    barType := .notBar
    numSrcRegs := r.numReadRegs
    numDestRegs := 0
    pin2ndMem := false
    eom := false
    aluUop := false
    instSize := r.size
    part := .branch }

/-- A fence: the uop of a fence instruction, or one of those around an instruction that is to be
offloaded.  `m_alu_uop` is not written.

SRCLINE: trace_read_cpu.cc:546-559, 596-606, 611-620 -/
def createFence (r : CpuRecord) (eom : Bool) (u : CpuUop) : CpuUop :=
  { u with
    opcode := CpuOpcode.misc
    memType := .notMem
    cfType := .notCf
    opType := .fullFence
    barType := .notBar
    numDestRegs := 0
    numSrcRegs := 0
    pin2ndMem := false
    eom := eom
    instSize := r.size
    part := .fence }

/-- The uop of an instruction that has no other.  `m_alu_uop` is not written.

SRCLINE: trace_read_cpu.cc:564-576 -/
def createNop (r : CpuRecord) (u : CpuUop) : CpuUop :=
  { u with
    opcode := r.opcode
    memType := .notMem
    cfType := .notCf
    opType := .nop
    barType := .notBar
    numDestRegs := 0
    numSrcRegs := 0
    pin2ndMem := false
    eom := true
    instSize := r.size
    part := .nop }

/-- The uops of the instruction itself.

SRCLINE: trace_read_cpu.cc:344-576 -/
def createOwn (k : CpuDecodeKnobs) (r : CpuRecord) (slots : ℕ → CpuUop) : UopArray :=
  let a : UopArray :=
    ⟨Function.update slots 0 { slots 0 with repUopNum := 0, opcode := r.opcode }, 0⟩
  let a := if r.numLd ≠ 0 then a.push (createLoad r false) else a
  let a := if r.numLd = 2 then a.push (createLoad r true) else a
  let a := if r.instHasAluUop then a.push (createAlu k r) else a
  let a := if r.hasSt then a.push (createStore r) else a
  let a := if r.cfType ≠ 0 then a.push (createBranch r) else a
  let a := if a.num = 0 ∧ r.opcode = CpuOpcode.misc ∧ r.ldVaddr2 = 1 then
    a.push (createFence r true) else a
  if a.num = 0 then a.push (createNop r) else a

/-- `m_hmc_fence_info` asks for fences around the instruction.

SRCLINE: trace_read_cpu.cc:579-586 -/
def CpuDecodeKnobs.fenced (k : CpuDecodeKnobs) (r : CpuRecord) : Bool :=
  k.enableHmcFence && k.hmcFenceInfo.contains r.instructionAddr

/-- All static uops.

SRCLINE: trace_read_cpu.cc:344-624 -/
def createUops (k : CpuDecodeKnobs) (r : CpuRecord) (slots : ℕ → CpuUop) : UopArray :=
  let a := createOwn k r slots
  if k.fenced r then
    let a := if k.enableHmcDoubleFence then a.pushFront (createFence r false) else a
    a.clearLast.push (createFence r true)
  else a

/-! ## Registers -/

/-- One more source register. -/
def CpuUop.addSrcs (u : CpuUop) (regs : List ℕ) : CpuUop :=
  { u with srcs := u.srcs ++ regs, numSrcRegs := u.numSrcRegs + regs.length }

/-- The source registers: a store and a branch also read what the ALU uop writes, or else what the
load writes, and the ALU uop also reads what the load writes.

SRCLINE: trace_read_cpu.cc:654-688 -/
def setSources (r : CpuRecord) (u : CpuUop) : CpuUop :=
  let u := { u with srcs := r.src.take u.numSrcRegs }
  let u :=
    if u.memType = .st ∨ u.cfType ≠ .notCf then
      if r.tmpRegNeeded && !r.instHasAluUop then u.addSrcs [trRegTmp0]
      else if r.instHasAluUop then u.addSrcs (r.dst.take r.numDestRegs)
      else u
    else u
  if u.aluUop && r.tmpRegNeeded then u.addSrcs [trRegTmp0] else u

/-- The destination registers: a load also writes the temporary register.

SRCLINE: trace_read_cpu.cc:690-702 -/
def setDests (r : CpuRecord) (u : CpuUop) : CpuUop :=
  let dests := r.dst.take u.numDestRegs
  if r.tmpRegNeeded = true ∧ u.memType = .ld then
    { u with dests := dests ++ [trRegTmp0], numDestRegs := u.numDestRegs + 1 }
  else { u with dests := dests }

/-- The instructions that stop the fetch. -/
def CpuRecord.stopsFetch (r : CpuRecord) : Bool :=
  decide (r.opcode ∈ [CpuOpcode.semaphore, CpuOpcode.io, CpuOpcode.interrupt, CpuOpcode.system,
    CpuOpcode.syscall, CpuOpcode.sysret])

/-- SRCLINE: trace_read_cpu.cc:704-718 -/
def setBarrier (r : CpuRecord) (last : Bool) (u : CpuUop) : CpuUop :=
  if last = true ∧ u.memType = .notMem ∧ r.stopsFetch = true then
    { u with barType := .barFetch, cfType := .ico }
  else u

/-! ## The hash table -/

/-- The static part of a uop, of which only one destination register is kept.

SRCLINE: trace_read.cc:373-385, 392-406 -/
def InstInfo.ofUop (u : CpuUop) (numUop : ℕ) : InstInfo where
  opType := u.opType
  memType := u.memType
  cfType := u.cfType
  barType := u.barType
  numDestRegs := if u.numDestRegs = 0 then 0 else 1
  numSrcRegs := u.numSrcRegs
  memSize := u.memSize
  addr := u.addr
  instSize := u.instSize
  srcs := u.srcs.take u.numSrcRegs
  dests := u.dests.take (if u.numDestRegs = 0 then 0 else 1)
  secondMem := u.pin2ndMem
  numUop := numUop
  part := u.part

/-- The entry of a uop whose register lists are not too long.

SRCLINE: trace_read.cc:371-407 -/
def convertTUopToInfo (u : CpuUop) (numUop : ℕ) : Option InstInfo :=
  if u.numDestRegs ≤ maxDests ∧ u.numSrcRegs ≤ maxSrcs then some (InstInfo.ofUop u numUop)
  else none

/-- SRCLINE: trace_read.cc:337-364 -/
def convertInfoUop (info : InstInfo) (u : CpuUop) : CpuUop :=
  { u with
    opType := info.opType
    memType := info.memType
    cfType := info.cfType
    barType := info.barType
    numDestRegs := info.numDestRegs
    numSrcRegs := info.numSrcRegs
    memSize := info.memSize
    addr := info.addr
    instSize := info.instSize
    srcs := info.srcs
    dests := info.dests
    pin2ndMem := info.secondMem
    part := info.part }

/-- The types that take a load address. -/
def MemType.readsLoadAddr : MemType → Bool
  | ld | pf | swprefNta | swprefT0 | swprefT1 | swprefT2 => true
  | _ => false

/-- `amp_val`. -/
def CpuDecodeKnobs.ampVal (k : CpuDecodeKnobs) (r : CpuRecord) : ℕ :=
  if r.opcode = CpuOpcode.stringop then k.memSizeAmp else 1

/-- What differs between the instances of an instruction: the branch, or the address and the size
of the access.  The minimum with `MAX_ADDR` changes no address.

SRCLINE: trace_read_cpu.cc:258-300 -/
def convertDynUop (k : CpuDecodeKnobs) (r : CpuRecord) (info : InstInfo) (repOffset : Addr)
    (u : CpuUop) : CpuUop :=
  let amp := BitVec.ofNat 64 (k.ampVal r)
  let u := { u with va := 0 }
  let u :=
    if info.cfType ≠ .notCf then
      { u with
        actualTaken := r.actuallyTaken
        target := r.branchTarget
        activeMask := r.ldVaddr2.setWidth 32
        takenMask := r.ldVaddr1.setWidth 32
        reconvergeAddr := r.stVaddr }
    else if info.memType = .st then
      { u with
        va := (r.stVaddr + repOffset) * amp
        memSize := min (r.memWriteSize * k.ampVal r) k.repMovMemSizeMaxNew }
    else if info.memType.readsLoadAddr then
      { u with
        va := ((if info.secondMem then r.ldVaddr2 else r.ldVaddr1) + repOffset) * amp
        memSize := min (r.memReadSize * k.ampVal r) k.repMovMemSizeMaxNew }
    else u
  { u with npc := u.addr }

/-! ## Decoding -/

/-- The static uop with number `ii` gets its registers and its entry in the table, which is new.

SRCLINE: trace_read_cpu.cc:629-731 -/
def decodeNew (k : CpuDecodeKnobs) (r : CpuRecord) (num ii : ℕ) (st : DecodeState) :
    Option DecodeState :=
  if (st.table (r.key ii)).isSome then none
  else
    let u := setBarrier r (decide (ii + 1 = num))
      (setDests r (setSources r { st.slots ii with addr := r.instructionAddr }))
    match convertTUopToInfo u (if ii = 0 then num else 0) with
    | none => none
    | some info =>
      some {
        table := Function.update st.table (r.key ii) (some info)
        slots := Function.update st.slots ii
          (convertDynUop k r info 0 { u with info := some (r.key ii) }) }

/-- The uop with number `ii` from its entry in the table.

SRCLINE: trace_read_cpu.cc:745-762 -/
def decodeOld (k : CpuDecodeKnobs) (r : CpuRecord) (ii : ℕ) (st : DecodeState) :
    Option DecodeState :=
  match st.table (r.key ii) with
  | none => none
  | some info =>
    let u := convertDynUop k r info 0 (convertInfoUop info (st.slots ii))
    some { st with
      slots := Function.update st.slots ii
        { u with
          info := some (r.key ii)
          eom := false
          addr := r.instructionAddr
          opcode := r.opcode } }

/-- The end-of-macro flag of the uop with number `i`. -/
def DecodeState.setEom (st : DecodeState) (i : ℕ) : DecodeState :=
  { st with slots := Function.update st.slots i { st.slots i with eom := true } }

/-- The static uops and their number, from the record or from the table.

SRCLINE: trace_read_cpu.cc:344-768 -/
def decodeStatic (k : CpuDecodeKnobs) (r : CpuRecord) (st : DecodeState) :
    Option (DecodeState × ℕ) :=
  match st.table (r.key 0) with
  | none =>
    let a := createUops k r st.slots
    ((List.range a.num).foldlM (fun st ii => decodeNew k r a.num ii st)
      { st with slots := a.slots }).map fun st => (st.setEom (a.num - 1), a.num)
  | some info =>
    ((List.range info.numUop).foldlM (fun st ii => decodeOld k r ii st) st).map
      fun st => (st.setEom (info.numUop - 1), info.numUop)

/-! ## Repeat moves -/

/-- A string instruction that moves nothing becomes a NOP: the entry of its first uop and the slot
behind its uops are written, too.

SRCLINE: trace_read_cpu.cc:786-812 -/
def repeatNone (k : CpuDecodeKnobs) (r : CpuRecord) (num : ℕ) (st : DecodeState) :
    Option DecodeState :=
  let u := { st.slots 0 with
    memType := .notMem
    cfType := .notCf
    opType := .nop
    barType := .notBar
    numDestRegs := 0
    numSrcRegs := 0
    pin2ndMem := false
    eom := true
    instSize := r.size
    part := .nop }
  (convertTUopToInfo u 1).map fun info =>
    let slots := Function.update st.slots 0 { u with info := some (r.key 0) }
    let slots := Function.update slots num (convertDynUop k r info 0 (slots num))
    { table := Function.update st.table (r.key 0) (some info)
      slots := Function.update slots 0
        { slots 0 with eom := true, addr := r.instructionAddr } }

/-- The offset of a repetition.

SRCLINE: trace_read_cpu.cc:818-820 -/
def repOffset (k : CpuDecodeKnobs) (r : CpuRecord) (counter : ℕ) : Addr :=
  let offset := BitVec.ofNat 64 (k.repMovMemSizeMaxNew * counter)
  if r.repDir then -offset else offset

/-- One uop of a repetition, into the slot `dyn`.

SRCLINE: trace_read_cpu.cc:826-845 -/
def repeatUop (k : CpuDecodeKnobs) (r : CpuRecord) (rest counter dyn ii : ℕ) (st : DecodeState) :
    Option DecodeState :=
  match st.table (r.key ii) with
  | none => none
  | some info =>
    let u := convertDynUop k r info (repOffset k r counter) (st.slots dyn)
    some { st with
      slots := Function.update st.slots dyn
        { u with
          memSize := min rest k.repMovMemSizeMaxNew
          info := some (r.key ii)
          eom := false
          addr := r.instructionAddr } }

/-- The repetition of all static uops.

SRCLINE: trace_read_cpu.cc:822-845 -/
def repeatUops (k : CpuDecodeKnobs) (r : CpuRecord) (num rest counter dyn : ℕ)
    (st : DecodeState) : Option DecodeState :=
  if 8 ≤ num then none
  else
    (List.range num).foldlM (fun st ii => repeatUop k r rest counter (dyn + ii) ii st)
      { st with
        slots := Function.update st.slots (dyn - 1)
          { st.slots (dyn - 1) with npc := r.instructionAddr } }

/-- The loop over the repetitions, with the array and the number of uops at its end.

SRCLINE: trace_read_cpu.cc:817-849 -/
def repeatLoop (k : CpuDecodeKnobs) (r : CpuRecord) (num rest counter dyn : ℕ)
    (st : DecodeState) : Option (DecodeState × ℕ) :=
  if _h : 0 < rest ∧ dyn < maxPup then
    match repeatUops k r num rest counter dyn st with
    | none => none
    | some st =>
      repeatLoop k r num (rest - k.repMovMemSizeMaxNew) (counter + 1) (dyn + num) st
  else some (st, dyn)
termination_by rest
decreasing_by
  have hchunk : 0 < k.repMovMemSizeMaxNew := by
    simp [CpuDecodeKnobs.repMovMemSizeMaxNew, repMovMemSizeMax]
  omega

/-- The repeat move: the state, `num_uop` and `dyn_uop_counter`.

SRCLINE: trace_read_cpu.cc:779-855 -/
def repeatMove (k : CpuDecodeKnobs) (r : CpuRecord) (num : ℕ) (st : DecodeState) :
    Option (DecodeState × ℕ × ℕ) :=
  let res :=
    if r.memReadSize = 0 then (repeatNone k r num st).map fun st => (st, 1, 1)
    else (repeatLoop k r num (r.memReadSize - k.repMovMemSizeMaxNew) 1 num st).map
      fun (st, dyn) => (st, num, dyn)
  res.map fun (st, num, dyn) =>
    ({ st with slots := Function.update st.slots 0 { st.slots 0 with repUopNum := dyn } },
      num, dyn)

/-- The table and the array after decoding, `num_uop` and `dyn_uop_counter`. -/
structure CpuDecoded extends DecodeState where
  numUop : ℕ
  dynUopCounter : ℕ

/-- SRCLINE: trace_read_cpu.cc:311-894 -/
def convertPinuopToTUop (k : CpuDecodeKnobs) (r : CpuRecord) (st : DecodeState) :
    Option CpuDecoded := do
  let (st, num) ← decodeStatic k r st
  let (st, num, dyn) ←
    if r.opcode = CpuOpcode.stringop then repeatMove k r num st else some (st, num, num)
  some {
    table := Function.update st.table (r.key 0)
      ((st.table (r.key 0)).map fun info => { info with numUop := num })
    slots := Function.update st.slots (dyn - 1)
      { st.slots (dyn - 1) with eom := true, npc := r.instructionNextAddr }
    numUop := num
    dynUopCounter := dyn }

/-- The entry of the uop with number `i`. -/
def CpuDecoded.infoOf (d : CpuDecoded) (i : ℕ) : Option InstInfo :=
  (d.slots i).info.bind d.table

end MacSim.Model
