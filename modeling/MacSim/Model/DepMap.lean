import MacSim.Model.MemReq

/-!
# Dependence mapping of uops

`map_c` of `map.cc`, with the uop objects it points at.  A dependence is a raw pointer to a
pooled `uop_c`, so uops live in a heap indexed by `UopPtr`, and every test the source makes
through a pointer reads the heap of the moment.  `invalidUop` is the sentinel
`m_simBase->m_invalid_uop`.

Each thread has a register map, the record of its last store, and the store hash: stores by
the quadword of their first byte, one per start byte.  A failed assertion, or the use of a
null pointer, is `none`.

Uop numbers and sizes are natural numbers; the one place where the source narrows a number,
the `unsigned int` of the walk in `add_store_deps`, keeps its `% 2 ^ 32`.
-/

set_option autoImplicit false

namespace MacSim.Model

/-- A pointer to a `uop_c`. -/
abbrev UopPtr := ℕ

/-- `m_simBase->m_invalid_uop`. -/
def invalidUop : UopPtr := 0

/-- `Dep_Type`.
SRCLINE: uop.h:503-509 -/
inductive DepType where
  | regDataDep | memAddrDep | memDataDep | prevUopDep
  deriving DecidableEq, Repr

/-- `src_info_c`. -/
structure SrcInfo where
  type : DepType
  uop : UopPtr
  uopNum : ℕ
  deriving DecidableEq, Repr

/-- What the front end, the dependence map and the scheduler use of `uop_c`.  `srcInfo` and
`mapSrcInfo` are the first `m_num_srcs` elements of their arrays, the second one filled by
the map, and `lastDepExec` names the uop whose done cycle `m_last_dep_exec` points at. -/
structure CoreUop where
  uopNum : ℕ
  threadId : ℤ
  memType : MemType
  vaddr : Addr
  memSize : ℕ
  offPath : Bool
  bogus : Bool
  valid : Bool
  srcInfo : List ℕ
  destInfo : List ℕ
  mapSrcInfo : List SrcInfo
  childUops : List UopPtr
  srcsRdy : Bool
  lastDepExec : Option UopPtr
  doneCycle : ℕ
  deriving DecidableEq, Repr

/-- `uop_c::init` with the `m_valid` its caller sets.
SRCLINE: uop.cc:395-472 -/
def CoreUop.init (valid : Bool) : CoreUop :=
  { uopNum := 0, threadId := -1, memType := .notMem, vaddr := 0, memSize := 0,
    offPath := false, bogus := false, valid := valid, srcInfo := [], destInfo := [],
    mapSrcInfo := [], childUops := [], srcsRdy := false, lastDepExec := none, doneCycle := 0 }

/-- The stores that `map_mem_dep` and `uop_c::free` treat as such. -/
def MemType.hashedStore : MemType → Bool
  | .st | .stLm => true
  | _ => false

/-- The loads that `map_mem_dep` treats as such. -/
def MemType.hashedLoad : MemType → Bool
  | .ld | .ldLm => true
  | _ => false

/-- `map_entry_c`, without the fields that nothing reads. -/
structure MapEntry where
  uop : UopPtr
  uopNum : ℕ
  deriving DecidableEq, Repr

/-- `mem_map_entry_c`: the store that starts at each byte of a quadword, and the mask of
those that are pending. -/
structure MemMapEntry where
  uop : ℕ → Option UopPtr
  storeMask : BitVec 8

/-- A new entry.  The source leaves the pointers of a new entry undefined; those whose mask
bit is clear are never followed. -/
def MemMapEntry.fresh : MemMapEntry := { uop := fun _ => none, storeMask := 0 }

/-- `map_data_c`.  The index `id << 1 | off_path` of a register map entry is the pair of its
parts. -/
structure MapData where
  regMap : ℕ → Bool → MapEntry
  mapFlags : ℕ → Bool
  lastStore : Bool → MapEntry
  lastStoreFlag : Bool
  oracleMemHash : Addr → Option MemMapEntry

/-- `map_data_c::initialize`.
SRCLINE: map.cc:84-102 -/
def MapData.initial : MapData :=
  { regMap := fun _ _ => ⟨invalidUop, 0⟩
    mapFlags := fun _ => false
    lastStore := fun _ => ⟨invalidUop, 0⟩
    lastStoreFlag := false
    oracleMemHash := fun _ => none }

/-- One destination of `update_map`. -/
def MapData.setReg (d : MapData) (id : ℕ) (offPath : Bool) (e : MapEntry) : MapData :=
  { d with
    regMap := Function.update d.regMap id (Function.update (d.regMap id) offPath e)
    mapFlags := Function.update d.mapFlags id offPath }

/-- The knobs that the dependence map reads. -/
structure DepKnobs where
  memObeyStoreDep : Bool
  memOooStores : Bool
  useNewOracle : Bool
  ignoreDep : Bool
  deriving DecidableEq, Repr

/-- `NUM_REG_IDS`.
SRCLINE: global_defs.h:177 -/
def numRegIds : ℕ := 1600

/-- `MAX_UOP_SRC_DEPS`.
SRCLINE: global_defs.h:179 -/
def maxUopSrcDeps : ℕ := 10

/-- `BYTES_IN_QUADWORD`.
SRCLINE: global_defs.h:204 -/
def bytesInQuadword : ℕ := 8

/-- `MEM_MAP_KEY(va, off_path)`.
SRCLINE: map.cc:62 -/
def memMapKey (va : Addr) (offPath : Bool) : Addr :=
  ((va >>> 3) <<< 1) ||| (if offPath then 1 else 0)

/-- `va & 0x7`. -/
def firstByte (va : Addr) : ℕ := (va &&& 0x7).toNat

/-- `BYTE_OVERLAP`.
SRCLINE: map.cc:71-72 -/
def byteOverlap (a₀ : Addr) (s₀ : ℕ) (a₁ : Addr) (s₁ : ℕ) : Bool :=
  !(decide (a₁ + BitVec.ofNat 64 s₁ ≤ a₀) || decide (a₀ + BitVec.ofNat 64 s₀ ≤ a₁))

/-- The uop objects of a core, by pointer. -/
abbrev UopHeap := UopPtr → CoreUop

/-! ## Adding a source -/

/-- `map_c::add_src_from_map_entry`, for the next free source of the uop.
SRCLINE: map.cc:126-171 -/
def addSrcFromMapEntry (uop : CoreUop) (mapEntry : MapEntry) (type : DepType) :
    Option CoreUop :=
  if maxUopSrcDeps ≤ uop.mapSrcInfo.length then none
  else if uop.uopNum ≠ 0 ∧ uop.uopNum ≤ mapEntry.uopNum ∧ uop.offPath = false then none
  else
    some { uop with
      mapSrcInfo := uop.mapSrcInfo ++ [⟨type, mapEntry.uop, mapEntry.uopNum⟩] }

/-- The test of `add_src_from_uop` that a source is already there: some source object has,
at this moment, the number of the new one.
SRCLINE: map.cc:177-182 -/
def alreadySource (heap : UopHeap) (uop : CoreUop) (src : UopPtr) : Bool :=
  uop.mapSrcInfo.any fun info => (heap info.uop).uopNum == (heap src).uopNum

/-- `map_c::add_src_from_uop`.  The assertion on thread ids holds of every uop of a thread.
SRCLINE: map.cc:174-214 -/
def addSrcFromUop (type : DepType) (p : UopPtr) (heap : UopHeap) (src : UopPtr) :
    Option UopHeap :=
  let uop := heap p
  if alreadySource heap uop src then some heap
  else if maxUopSrcDeps ≤ uop.mapSrcInfo.length then none
  else
    some (Function.update heap p
      { uop with mapSrcInfo := uop.mapSrcInfo ++ [⟨type, src, (heap src).uopNum⟩] })

/-! ## The state of a core -/

/-- What the front end, the dependence map, the scheduler and retirement of one core share:
the uop objects with the pool of free ones, the dependence map by thread, and the uops that
have been fetched and not yet freed; of these, `waiting` are before the scheduler and
`inSched` are in it. -/
structure DepCore where
  heap : UopHeap
  pool : List UopPtr
  nextUop : UopPtr
  coreMapData : ℤ → Option MapData
  uopCount : ℤ → ℕ
  inFlight : List UopPtr
  waiting : List UopPtr
  inSched : List UopPtr
  cycle : ℕ

/-- A core before the first fetch. -/
def DepCore.new : DepCore :=
  { heap := fun _ => CoreUop.init false
    pool := []
    nextUop := invalidUop + 1
    coreMapData := fun _ => none
    uopCount := fun _ => 0
    inFlight := []
    waiting := []
    inSched := []
    cycle := 0 }

namespace DepCore

/-- Write one uop object. -/
def setUop (s : DepCore) (p : UopPtr) (uop : CoreUop) : DepCore :=
  { s with heap := Function.update s.heap p uop }

/-- Write the map data of one thread. -/
def setMapData (s : DepCore) (tid : ℤ) (d : MapData) : DepCore :=
  { s with coreMapData := Function.update s.coreMapData tid (some d) }

/-- Writing a uop updates its object. -/
@[simp] theorem setUop_heap (s : DepCore) (p : UopPtr) (u : CoreUop) :
    (s.setUop p u).heap = Function.update s.heap p u := rfl

/-- Writing a uop leaves the map data alone. -/
@[simp] theorem setUop_coreMapData (s : DepCore) (p : UopPtr) (u : CoreUop) :
    (s.setUop p u).coreMapData = s.coreMapData := rfl

/-- Writing a uop leaves the pool alone. -/
@[simp] theorem setUop_pool (s : DepCore) (p : UopPtr) (u : CoreUop) :
    (s.setUop p u).pool = s.pool := rfl

/-- Writing a uop leaves the next object alone. -/
@[simp] theorem setUop_nextUop (s : DepCore) (p : UopPtr) (u : CoreUop) :
    (s.setUop p u).nextUop = s.nextUop := rfl

/-- Writing a uop leaves the counts of uops alone. -/
@[simp] theorem setUop_uopCount (s : DepCore) (p : UopPtr) (u : CoreUop) :
    (s.setUop p u).uopCount = s.uopCount := rfl

/-- Writing a uop leaves the uops in flight alone. -/
@[simp] theorem setUop_inFlight (s : DepCore) (p : UopPtr) (u : CoreUop) :
    (s.setUop p u).inFlight = s.inFlight := rfl

/-- Writing a uop leaves the waiting uops alone. -/
@[simp] theorem setUop_waiting (s : DepCore) (p : UopPtr) (u : CoreUop) :
    (s.setUop p u).waiting = s.waiting := rfl

/-- Writing a uop leaves the uops in the scheduler alone. -/
@[simp] theorem setUop_inSched (s : DepCore) (p : UopPtr) (u : CoreUop) :
    (s.setUop p u).inSched = s.inSched := rfl

/-- Writing a uop leaves the clock alone. -/
@[simp] theorem setUop_cycle (s : DepCore) (p : UopPtr) (u : CoreUop) :
    (s.setUop p u).cycle = s.cycle := rfl

/-- Writing map data leaves the objects alone. -/
@[simp] theorem setMapData_heap (s : DepCore) (tid : ℤ) (d : MapData) :
    (s.setMapData tid d).heap = s.heap := rfl

/-- Writing map data updates that of the thread. -/
@[simp] theorem setMapData_coreMapData (s : DepCore) (tid : ℤ) (d : MapData) :
    (s.setMapData tid d).coreMapData = Function.update s.coreMapData tid (some d) := rfl

/-- Writing map data leaves the pool alone. -/
@[simp] theorem setMapData_pool (s : DepCore) (tid : ℤ) (d : MapData) :
    (s.setMapData tid d).pool = s.pool := rfl

/-- Writing map data leaves the next object alone. -/
@[simp] theorem setMapData_nextUop (s : DepCore) (tid : ℤ) (d : MapData) :
    (s.setMapData tid d).nextUop = s.nextUop := rfl

/-- Writing map data leaves the counts of uops alone. -/
@[simp] theorem setMapData_uopCount (s : DepCore) (tid : ℤ) (d : MapData) :
    (s.setMapData tid d).uopCount = s.uopCount := rfl

/-- Writing map data leaves the uops in flight alone. -/
@[simp] theorem setMapData_inFlight (s : DepCore) (tid : ℤ) (d : MapData) :
    (s.setMapData tid d).inFlight = s.inFlight := rfl

/-- Writing map data leaves the waiting uops alone. -/
@[simp] theorem setMapData_waiting (s : DepCore) (tid : ℤ) (d : MapData) :
    (s.setMapData tid d).waiting = s.waiting := rfl

/-- Writing map data leaves the uops in the scheduler alone. -/
@[simp] theorem setMapData_inSched (s : DepCore) (tid : ℤ) (d : MapData) :
    (s.setMapData tid d).inSched = s.inSched := rfl

/-- Writing map data leaves the clock alone. -/
@[simp] theorem setMapData_cycle (s : DepCore) (tid : ℤ) (d : MapData) :
    (s.setMapData tid d).cycle = s.cycle := rfl

/-! ## The register map -/

/-- `map_c::read_reg_map`: one source for each source register.
SRCLINE: map.cc:280-305 -/
def readRegMap (s : DepCore) (p : UopPtr) : Option DepCore :=
  let uop := s.heap p
  let d := (s.coreMapData uop.threadId).getD MapData.initial
  let add := fun (u : CoreUop) (id : ℕ) =>
    if id < numRegIds then addSrcFromMapEntry u (d.regMap id (d.mapFlags id)) .regDataDep
    else none
  (uop.srcInfo.foldlM add uop).map fun u => (s.setUop p u).setMapData uop.threadId d

/-- `map_c::read_store_map`.
SRCLINE: map.cc:309-330 -/
def readStoreMap (k : DepKnobs) (s : DepCore) (p : UopPtr) : Option DepCore :=
  let uop := s.heap p
  match s.coreMapData uop.threadId with
  | none => none
  | some d =>
      if !k.memObeyStoreDep || k.memOooStores then some s
      else if uop.memType ≠ .notMem then
        (addSrcFromMapEntry uop (d.lastStore d.lastStoreFlag) .memAddrDep).map (s.setUop p)
      else some s

/-- `map_c::update_map`.
SRCLINE: map.cc:235-267 -/
def updateMap (s : DepCore) (p : UopPtr) : Option DepCore :=
  let uop := s.heap p
  match s.coreMapData uop.threadId with
  | none => none
  | some d =>
      let write := fun (d : MapData) (id : ℕ) =>
        if id < numRegIds then some (d.setReg id uop.offPath ⟨p, uop.uopNum⟩) else none
      (uop.destInfo.foldlM write d).map (s.setMapData uop.threadId)

/-- `map_c::map_uop`.
SRCLINE: map.cc:273-278 -/
def mapUop (k : DepKnobs) (s : DepCore) (p : UopPtr) : Option DepCore := do
  let s ← s.readRegMap p
  let s ← s.readStoreMap k p
  s.updateMap p

/-! ## The store hash -/

/-- `map_c::update_store_hash`.  With the new oracle the entry of an on-path store has to be
there already.
SRCLINE: map.cc:334-391 -/
def updateStoreHash (k : DepKnobs) (s : DepCore) (p : UopPtr) : Option DepCore :=
  let uop := s.heap p
  let key := memMapKey uop.vaddr uop.offPath
  let b := firstByte uop.vaddr
  match s.coreMapData uop.threadId with
  | none => none
  | some d =>
      let found :=
        if k.useNewOracle && !uop.offPath then d.oracleMemHash key
        else some ((d.oracleMemHash key).getD MemMapEntry.fresh)
      match found with
      | none => none
      | some e =>
          let e' : MemMapEntry :=
            { uop := Function.update e.uop b (some p), storeMask := e.storeMask ||| (1#8 <<< b) }
          some (s.setMapData uop.threadId
            { d with oracleMemHash := Function.update d.oracleMemHash key (some e') })

/-- The pending stores of an entry, by start byte. -/
def pendingStores (e : MemMapEntry) : List UopPtr :=
  (List.range bytesInQuadword).filterMap fun ii =>
    if e.storeMask.getLsbD ii then e.uop ii else none

/-- The pending stores of an entry that pass the overlap test against an access. -/
def overlapping (heap : UopHeap) (va : Addr) (size : ℕ) (e : MemMapEntry) : List UopPtr :=
  (pendingStores e).filter fun src =>
    byteOverlap (heap src).vaddr (heap src).memSize va size

/-- The walk of `add_store_deps` for the latest store; `firstByteOpNum` is an
`unsigned int`.
SRCLINE: map.cc:430-458 -/
def latestStore (heap : UopHeap) : List UopPtr → Option UopPtr → ℕ → Option UopPtr
  | [], found, _ => found
  | src :: rest, found, firstByteOpNum =>
      if firstByteOpNum < (heap src).uopNum then
        latestStore heap rest (some src) ((heap src).uopNum % 2 ^ 32)
      else latestStore heap rest found firstByteOpNum

/-- The stores that `add_store_deps` passes to `add_src_from_uop`, and its result; `none` is
a failed assertion.
SRCLINE: map.cc:394-477 -/
def storeDeps (k : DepKnobs) (heap : UopHeap) (va : Addr) (size : ℕ) (e : MemMapEntry) :
    Option (List UopPtr × Option UopPtr) :=
  if e.storeMask = 1#8 <<< firstByte va then
    match e.uop (firstByte va) with
    | none => none
    | some src => if (heap src).vaddr = va then some ([src], some src) else none
  else
    let stores := overlapping heap va size e
    let latest := latestStore heap stores none 0
    some (if k.memOooStores then stores else latest.toList, latest)

/-- `map_c::add_store_deps`.  Its closing assertions hold of every store that is recorded
under the quadword.
SRCLINE: map.cc:394-477 -/
def addStoreDeps (k : DepKnobs) (s : DepCore) (p : UopPtr) :
    Option (Option UopPtr × DepCore) :=
  let uop := s.heap p
  match s.coreMapData uop.threadId with
  | none => none
  | some d =>
      match d.oracleMemHash (memMapKey uop.vaddr uop.offPath) with
      | none => some (none, s)
      | some e =>
          match storeDeps k s.heap uop.vaddr uop.memSize e with
          | none => none
          | some (stores, found) =>
              (stores.foldlM (addSrcFromUop .memDataDep p) s.heap).map fun heap =>
                (found, { s with heap := heap })

/-- `map_c::map_mem_dep`.
SRCLINE: map.cc:217-227 -/
def mapMemDep (k : DepKnobs) (s : DepCore) (p : UopPtr) : Option DepCore :=
  if !k.memObeyStoreDep then some s
  else if (s.heap p).memType.hashedStore then s.updateStoreHash k p
  else if (s.heap p).memType.hashedLoad then (s.addStoreDeps k p).map (·.2)
  else some s

/-- `map_c::delete_store_hash_entry`.
SRCLINE: map.cc:480-511 -/
def deleteStoreHashEntry (k : DepKnobs) (s : DepCore) (p : UopPtr) : DepCore :=
  let uop := s.heap p
  let key := memMapKey uop.vaddr uop.offPath
  let b := firstByte uop.vaddr
  if k.ignoreDep then s
  else
    match s.coreMapData uop.threadId with
    | none => s
    | some d =>
        match d.oracleMemHash key with
        | none => s
        | some e =>
            if e.uop b = some p then
              let mask := e.storeMask &&& ~~~(1#8 <<< b)
              let e' : MemMapEntry := { uop := Function.update e.uop b none, storeMask := mask }
              s.setMapData uop.threadId
                { d with
                  oracleMemHash :=
                    Function.update d.oracleMemHash key (if mask = 0 then none else some e') }
            else s

/-- `map_c::delete_map`.
SRCLINE: map.cc:230-232 -/
def deleteMap (s : DepCore) (tid : ℤ) : DepCore :=
  { s with coreMapData := Function.update s.coreMapData tid none }

end DepCore

end MacSim.Model
