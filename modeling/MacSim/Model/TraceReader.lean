import MacSim.Model.Word

/-!
# Reading a trace

The reader of one thread: `setup_trace` reads one record ahead, `read_trace` reads the rest in
chunks of `k_trace_buffer_size` records, and the decoders turn each record into uops.  The GPU
decoder finds the lane addresses of a memory instruction in the records that follow it: it
pushes one record back with `ungetch_trace` and then peeks at the records one at a time.

The file is the list of its records with a position; `gzread` returns what is left, up to what
was asked for, and `gzseek` moves the position back.  A thread is read while it runs on its core
and is not finished, so `read_trace` has no other way to fail than the end of the file.
-/

set_option autoImplicit false

namespace MacSim.Model

/-- The knobs of the reader and what it uses of the format `ρ` of the records.  `extraUops` is
`m_num_uop - 1` after the last conversion, which may depend on all the conversions so far. -/
structure TraceKnobs (ρ : Type) where
  bufferSize : ℕ
  maxInsts : ℕ
  instAddr : ρ → Addr
  extraUops : List (ρ × Addr) → ℕ

/-- What the decoders write into a uop about its place in the trace. -/
structure SentUop where
  instNum : ℕ
  isitBOM : Bool
  isitEOM : Bool
  lastUop : Bool
  deriving DecidableEq, Repr

/-- `thread_s`, what the reader uses of it.  `converted` are the records handed to
`convert_pinuop_to_t_uop`, each with its next address; `sent` are the uops sent so far. -/
structure TraceThread (ρ : Type) where
  file : List ρ
  pos : ℕ
  buffer : ℕ → ρ
  bufferIndex : ℕ
  bufferIndexMax : ℕ
  bufferExhausted : Bool
  traceEnded : Bool
  fetchEnded : Bool
  prev : ρ
  next : ρ
  bom : Bool
  numUop : ℕ
  numSendingUop : ℕ
  instFetched : ℕ
  converted : List (ρ × Addr)
  sent : List SentUop

namespace TraceThread

variable {ρ : Type}

/-! ## The file -/

/-- The records that `gzread` returns for a request of `n` records. -/
def gzread (s : TraceThread ρ) (n : ℕ) : List ρ := (s.file.drop s.pos).take n

/-- A new thread whose buffers hold `junk`, after `setup_trace`.
SRCLINE: process_manager.cc:818-840, trace_read.cc:189-211 -/
def setup (file : List ρ) (junk : ρ) : TraceThread ρ where
  file := file
  pos := min 1 file.length
  buffer := fun _ => junk
  bufferIndex := 0
  bufferIndexMax := 0
  bufferExhausted := true
  traceEnded := false
  fetchEnded := false
  prev := file.headD junk
  next := junk
  bom := true
  numUop := 0
  numSendingUop := 0
  instFetched := 0
  converted := []
  sent := []

/-- A chunk of the file is read into the buffer.
SRCLINE: trace_read.cc:233-245 -/
def readChunk (k : TraceKnobs ρ) (s : TraceThread ρ) : TraceThread ρ :=
  { s with
    pos := s.pos + (s.gzread k.bufferSize).length
    buffer := fun i => (s.gzread k.bufferSize).getD i (s.buffer i)
    bufferIndexMax := (s.gzread k.bufferSize).length
    bufferExhausted := false }

/-- The buffer index moves on; the buffer is exhausted when it wraps.  The result says whether
the record counts as read: the index that is compared is the new one.
SRCLINE: trace_read.cc:255-269, trace_read_gpu.cc:107-125 -/
def advanceBuffer (k : TraceKnobs ρ) (s : TraceThread ρ) : Bool × TraceThread ρ :=
  let i := (s.bufferIndex + 1) % k.bufferSize
  (decide (i < s.bufferIndexMax),
    { s with
      bufferIndex := i
      bufferExhausted := s.bufferExhausted || decide (i = 0) })

/-- `read_trace` into `m_next_trace_info`; the result is `inst_read`.
SRCLINE: trace_read.cc:217-330 -/
def readTrace (k : TraceKnobs ρ) (s : TraceThread ρ) : Bool × TraceThread ρ :=
  if s.traceEnded then (false, s)
  else
    let s := if s.bufferIndex = 0 then s.readChunk k else s
    let r := { s with next := s.buffer s.bufferIndex }.advanceBuffer k
    (r.1, { r.2 with traceEnded := !r.1 })

/-! ## Sending uops -/

/-- One record is read ahead, unless enough instructions have been fetched.
SRCLINE: trace_read_cpu.cc:991-1049, trace_read_gpu.cc:791-800 -/
def readAhead (k : TraceKnobs ρ) (s : TraceThread ρ) : Bool × TraceThread ρ :=
  if s.instFetched < k.maxInsts then s.readTrace k else (false, { s with traceEnded := true })

/-- The record before the one that was read is converted with its address as the next one.
SRCLINE: trace_read_cpu.cc:896-931, 1056-1073, trace_read_gpu.cc:802-868 -/
def convertPrev (k : TraceKnobs ρ) (read : Bool) (s : TraceThread ρ) : TraceThread ρ :=
  let converted := s.converted ++ [(s.prev, k.instAddr s.next)]
  { s with
    converted := converted
    prev := s.next
    instFetched := if read then s.instFetched + 1 else s.instFetched
    numUop := k.extraUops converted + 1
    numSendingUop := 0 }

/-- The next instruction. -/
def nextInst (k : TraceKnobs ρ) (s : TraceThread ρ) : TraceThread ρ :=
  (s.readAhead k).2.convertPrev k (s.readAhead k).1

/-- The next uop of the instruction; the end of the trace shows in the last uop of the
instruction that is being sent.
SRCLINE: trace_read_cpu.cc:1066-1109, trace_read_gpu.cc:861-899 -/
def sendUop (s : TraceThread ρ) : TraceThread ρ :=
  let eom := decide (s.numSendingUop + 1 = s.numUop)
  let lastUop := s.traceEnded && eom
  { s with
    numSendingUop := s.numSendingUop + 1
    bom := eom
    fetchEnded := lastUop
    sent := s.sent ++ [⟨s.converted.length, s.bom, eom, lastUop⟩] }

/-- `cpu_decoder_c::get_uops_from_traces` without the HMC functions; it does nothing once the
fetch has ended.
SRCLINE: trace_read_cpu.cc:957-1109 -/
def cpuGetUop (k : TraceKnobs ρ) (s : TraceThread ρ) : TraceThread ρ :=
  if s.fetchEnded then s
  else (if s.bom then s.nextInst k else s).sendUop

end TraceThread

end MacSim.Model
