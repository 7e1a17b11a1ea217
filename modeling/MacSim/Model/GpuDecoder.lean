import MacSim.Model.TraceReader
import MacSim.Model.MemReq

/-!
# Lane addresses and coalescing

The trace of a warp has the address of lane 0 in the record of a memory instruction and the
addresses of the other lanes packed into the records behind it.  The GPU decoder pushes the
record it has read ahead back, peeks at the lane records, collects the cache lines that the
lanes touch and makes a child uop for each of them.

A record is abstract: `laneAddr r i` are the bytes of its `i`-th address.  The decoder makes a
single memory uop of a memory instruction, which is the last uop of the instruction.
-/

set_option autoImplicit false

namespace MacSim.Model

/-- The cache that a memory uop of a GPU core goes to. -/
inductive LineUnit where
  | shared | const | texture | memory
  deriving DecidableEq, Repr

/-- The switch on the memory type.
SRCLINE: trace_read_gpu.cc:1051-1090, 1189-1210 -/
def MemType.lineUnit : MemType → LineUnit
  | ldSm | stSm => .shared
  | ldCm => .const
  | ldTm => .texture
  | _ => .memory

/-- The base two logarithm of a line size. -/
structure LineSize where
  bits : ℕ
  small : bits < 32

/-- The size of a line in bytes. -/
def LineSize.bytes (l : LineSize) : ℕ := 2 ^ l.bits

/-- What the GPU decoder uses of the knobs and of the records.  A load writes its destination
itself and a store has none, so that a memory instruction is a single uop (`memAlone`).
SRCLINE: trace_read_gpu.cc:385-530 -/
structure GpuKnobs (ρ : Type) extends TraceKnobs ρ where
  warpSize : ℕ
  addrPerTraceInst : ℕ
  processId : ℕ
  lineSize : LineUnit → LineSize
  memType : ρ → MemType
  memAddr : ρ → Addr
  accessSize : ρ → ℕ
  laneAddr : ρ → ℕ → Addr
  memAlone : ∀ insts r a, memType r ≠ .notMem → extraUops (insts ++ [(r, a)]) = 0

/-- A child uop. -/
structure ChildUop where
  vaddr : Addr
  uopNum : ℕ
  deriving DecidableEq, Repr

/-- A memory uop with the lane records that were read for it. -/
structure CoalescedUop (ρ : Type) where
  inst : ρ
  lanes : List ρ
  children : List ChildUop
  pendingChildUops : BitVec 64

/-- The reader of a warp. -/
structure GpuThread (ρ : Type) extends TraceThread ρ where
  tempUopCount : ℕ
  memUops : List (CoalescedUop ρ)

namespace TraceThread

variable {ρ : Type}

/-- `gpu_decoder_c::peek_trace` into a record that holds `old`; the first result is `inst_read`.
At the end of the file `gzread` leaves the record as it is.
SRCLINE: trace_read_gpu.cc:98-144 -/
def peekTrace (k : TraceKnobs ρ) (old : ρ) (s : TraceThread ρ) : Bool × ρ × TraceThread ρ :=
  if s.bufferExhausted then
    match s.gzread 1 with
    | [] => (false, old, s)
    | r :: _ => (true, r, { s with pos := s.pos + 1 })
  else ((s.advanceBuffer k).1, s.buffer s.bufferIndex, (s.advanceBuffer k).2)

/-- `gpu_decoder_c::ungetch_trace` of one record.  `none` is the failed assertion on a seek
before the start of the file.
SRCLINE: trace_read_gpu.cc:153-177 -/
def ungetchTrace (s : TraceThread ρ) : Option (TraceThread ρ) :=
  if 1 ≤ s.bufferIndex then some { s with bufferIndex := s.bufferIndex - 1 }
  else if 1 ≤ s.pos then some { s with pos := s.pos - 1 }
  else none

end TraceThread

namespace GpuKnobs

variable {ρ : Type}

/-- The base of the line of an address: `base_cache_line` of the three caches and
`memory_c::base_addr`.
SRCLINE: cache.cc:442-444, memory.cc:2023-2026 -/
def lineAddr (g : GpuKnobs ρ) (u : LineUnit) (a : Addr) : Addr :=
  match u with
  | .memory => a &&& -BitVec.ofNat 64 (g.lineSize .memory).bytes
  | u => a &&& ~~~nBitMask (log2Int (g.lineSize u).bytes)

/-- The unit of the memory uop of a record. -/
def unit (g : GpuKnobs ρ) (r : ρ) : LineUnit := (g.memType r).lineUnit

/-- The record of a memory instruction. -/
def isMem (g : GpuKnobs ρ) (r : ρ) : Bool := g.memType r != .notMem

/-- The relocation of the address of lane 0.  The product is one of 64-bit words.
SRCLINE: trace_read_gpu.cc:955-960 -/
def uopOffset (g : GpuKnobs ρ) : Addr :=
  g.lineAddr .memory (BitVec.ofNat 64 (0xFFFFFFFF * g.processId * 10))

/-- The relocation of the other lanes.  The product is one of 32-bit words.
SRCLINE: trace_read_gpu.cc:1185-1187 -/
def laneOffset (g : GpuKnobs ρ) : Addr :=
  g.lineAddr .memory (BitVec.ofNat 64 (0xFFFFFFFF * g.processId * 10 % 2 ^ 32))

/-- The first and the last line of an access, or zero twice. -/
def accessLines (g : GpuKnobs ρ) (r : ρ) (a : Addr) : Addr × Addr :=
  (g.lineAddr (g.unit r) a, g.lineAddr (g.unit r) (a + BitVec.ofNat 64 (g.accessSize r) - 1))

/-- The lines of lane 0.
SRCLINE: trace_read_gpu.cc:949-961, 1051-1090 -/
def uopLines (g : GpuKnobs ρ) (r : ρ) : Addr × Addr :=
  let vaddr := if g.memAddr r = 0 then 0 else g.memAddr r + g.uopOffset
  if vaddr ≠ 0 ∧ g.accessSize r ≠ 0 then g.accessLines r vaddr else (0, 0)

/-- The lines of another lane.
SRCLINE: trace_read_gpu.cc:1184-1215 -/
def laneLines (g : GpuKnobs ρ) (r : ρ) (a : Addr) : Addr × Addr :=
  if a ≠ 0 ∧ g.accessSize r ≠ 0 then g.accessLines r (a + g.laneOffset) else (0, 0)

/-- A line that was not seen is put at the end of `seen_block_list`. -/
def insertLine (seen : List Addr) (line : Addr) : List Addr :=
  if line ∈ seen then seen else seen ++ [line]

/-- The lines of one lane are collected.
SRCLINE: trace_read_gpu.cc:1126-1135 -/
def collect (seen : List Addr) (lines : Addr × Addr) : List Addr :=
  if lines.1 ≠ 0 then insertLine (insertLine seen lines.1) lines.2 else seen

/-- The state of the loop over the lanes: `traceInfo` is the record that was peeked at last,
`lanes` are all of them. -/
structure LaneState (ρ : Type) where
  thread : TraceThread ρ
  traceInfo : ρ
  lines : Addr × Addr
  seen : List Addr
  lanes : List ρ

/-- The next lane record is peeked at when the last one is used up.  `none` is the failed
assertion on a missing record.
SRCLINE: trace_read_gpu.cc:1160-1166 -/
def peekLane (g : GpuKnobs ρ) (readAddr : ℕ) (l : LaneState ρ) : Option (LaneState ρ) :=
  if (readAddr - 1) % g.addrPerTraceInst = 0 then
    let x := l.thread.peekTrace g.toTraceKnobs l.traceInfo
    if x.1 then
      some { l with thread := x.2.2, traceInfo := x.2.1, lanes := l.lanes ++ [x.2.1] }
    else none
  else some l

/-- After the last lane the next instruction is peeked at.
SRCLINE: trace_read_gpu.cc:1137-1158 -/
def peekNext (g : GpuKnobs ρ) (l : LaneState ρ) : LaneState ρ :=
  if l.thread.traceEnded then l
  else
    let x := l.thread.peekTrace g.toTraceKnobs l.thread.prev
    { l with thread := { x.2.2 with prev := x.2.1, traceEnded := !x.1 } }

/-- The address of a lane is unpacked and its lines are computed.
SRCLINE: trace_read_gpu.cc:1168-1215 -/
def unpackLane (g : GpuKnobs ρ) (r : ρ) (readAddr : ℕ) (l : LaneState ρ) : LaneState ρ :=
  { l with lines := g.laneLines r (g.laneAddr l.traceInfo ((readAddr - 1) % g.addrPerTraceInst)) }

/-- The lanes are unpacked from record after record; the lines of a lane are collected in the
round after.  A warp of two or more lanes needs as many rounds as it has lanes.
SRCLINE: trace_read_gpu.cc:1125-1217 -/
def laneLoop (g : GpuKnobs ρ) (r : ρ) : ℕ → ℕ → Bool → LaneState ρ → Option (LaneState ρ)
  | 0, _, _, _ => none
  | fuel + 1, readAddr, lastInst, l =>
      let l := { l with seen := collect l.seen l.lines }
      if lastInst then some (g.peekNext l)
      else (g.peekLane readAddr l).bind fun l =>
        laneLoop g r fuel (readAddr + 1) (readAddr + 1 = g.warpSize) (g.unpackLane r readAddr l)

/-- The children of a memory uop, numbered from `first` on.
SRCLINE: trace_read_gpu.cc:1219-1258 -/
def children (first : ℕ) (lines : List Addr) : List ChildUop :=
  lines.zipIdx.map fun x => ⟨x.1, first + x.2⟩

/-- The vector of pending children.
SRCLINE: trace_read_gpu.cc:1223-1230 -/
def pendingMask (n : ℕ) : BitVec 64 := if n = 64 then BitVec.allOnes 64 else nBitMask n

/-- The coalescing of the memory uop of the record `r`.  `none` is a failed assertion: on the
access size, on the push back, on a missing lane record, or that no line was collected.
SRCLINE: trace_read_gpu.cc:1092-1258 -/
def coalesce (g : GpuKnobs ρ) (s : GpuThread ρ) (r : ρ) : Option (GpuThread ρ) :=
  s.toTraceThread.ungetchTrace.bind fun t =>
    if g.accessSize r = 0 then none
    else (g.laneLoop r g.warpSize 1 false ⟨t, r, g.uopLines r, [], []⟩).bind fun l =>
      if l.seen = [] then none
      else some
        { l.thread with
          tempUopCount := s.tempUopCount + l.seen.length
          memUops := s.memUops ++
            [⟨r, l.lanes, children s.tempUopCount l.seen, pendingMask l.seen.length⟩] }

/-- `gpu_decoder_c::get_uops_from_traces`.
SRCLINE: trace_read_gpu.cc:762-1268 -/
def getUop (g : GpuKnobs ρ) (s : GpuThread ρ) : Option (GpuThread ρ) :=
  if s.fetchEnded then some s
  else
    let t := if s.bom then s.toTraceThread.nextInst g.toTraceKnobs else s.toTraceThread
    let s := { t.sendUop with tempUopCount := s.tempUopCount + 1, memUops := s.memUops }
    match t.converted.getLast? with
    | some (r, _) => if s.bom && g.isMem r then g.coalesce s r else some s
    | none => some s

/-- A number of calls. -/
def getUops (g : GpuKnobs ρ) : ℕ → GpuThread ρ → Option (GpuThread ρ)
  | 0, s => some s
  | m + 1, s => (g.getUop s).bind (getUops g m)

/-- A new warp after `setup_trace`. -/
def setup (file : List ρ) (junk : ρ) : GpuThread ρ :=
  { TraceThread.setup file junk with tempUopCount := 0, memUops := [] }

end GpuKnobs

end MacSim.Model
