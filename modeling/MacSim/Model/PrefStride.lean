import Mathlib.Logic.Function.Basic
import Mathlib.Data.Int.Notation
import MacSim.Model.Word

/-!
# The stride prefetcher

The region table has an entry for each region of memory that is watched, and the index table, at
the same place, what is known of its strides.  An entry is trained by one stride that repeats, or
by two that alternate; then each access that goes on in the same way sends prefetches.

Whether the queue takes a prefetch is given from outside, and so is the cycle.
-/

set_option autoImplicit false

namespace MacSim.Model

/-- The knobs, with the line shift. -/
structure StrideKnobs where
  tableN : ℕ
  regionBits : ℕ
  degree : ℤ
  distance : ℤ
  startdistance : BitVec 32
  singleThresh : ℤ
  multiThresh : ℤ
  singleStrideMode : Bool
  threadIndex : Bool
  lineBits : ℕ

/-- `stride_region_table_entry_s`. -/
structure StrideRegionEntry where
  tid : ℤ
  tag : Addr
  valid : Bool
  lastAccess : BitVec 32

/-- `stride_index_table_entry_s`. -/
structure StrideIndexEntry where
  trained : Bool
  trainCountMode : Bool
  numStates : ℕ
  currState : Fin 2
  lastIndex : Addr
  stride : Fin 2 → BitVec 32
  sCnt : Fin 2 → ℤ
  strans : Fin 2 → BitVec 32
  recnt : ℤ
  count : ℤ
  prefCount : ℤ
  prefCurrState : Fin 2
  prefLastIndex : Addr
  prefSent : ℤ

namespace StrideIndexEntry

/-- The part of `create_newentry` that is about the index table.
SRCLINE: pref_stride.cc:357-370 -/
def create (e : StrideIndexEntry) (lineIndex : Addr) : StrideIndexEntry :=
  { e with
    trained := false
    numStates := 1
    currState := 0
    lastIndex := lineIndex
    stride := fun _ => 0
    sCnt := fun _ => 0
    strans := fun _ => 0
    recnt := 0
    count := 0
    trainCountMode := false
    prefSent := 0 }

/-! ## Training -/

/-- An access while the strides are learnt.
SRCLINE: pref_stride.cc:198-231 -/
def learn (k : StrideKnobs) (e : StrideIndexEntry) (stride : BitVec 32) : StrideIndexEntry :=
  if e.stride e.currState = 0 then
    { e with
      stride := Function.update e.stride e.currState stride
      sCnt := Function.update e.sCnt e.currState 1 }
  else if e.stride e.currState = stride then
    { e with
      stride := Function.update e.stride e.currState stride
      sCnt := Function.update e.sCnt e.currState (e.sCnt e.currState + 1) }
  else if k.singleStrideMode then
    { e with
      stride := Function.update e.stride e.currState stride
      sCnt := Function.update e.sCnt e.currState 1 }
  else
    let e' : StrideIndexEntry :=
      { e with
        strans := Function.update e.strans e.currState stride
        numStates := if e.numStates = 1 then 2 else e.numStates
        currState := 1 - e.currState }
    if e'.currState = 0 then { e' with trainCountMode := true, count := 0, recnt := 0 } else e'

/-- An access while the two strides are checked.
SRCLINE: pref_stride.cc:232-247 -/
def check (e : StrideIndexEntry) (stride : BitVec 32) (lineIndex : Addr) : StrideIndexEntry :=
  if stride = e.stride e.currState ∧ e.count < e.sCnt e.currState then
    { e with recnt := e.recnt + 1, count := e.count + 1 }
  else if stride = e.strans e.currState ∧ e.count = e.sCnt e.currState then
    { e with recnt := e.recnt + 1, count := 0, currState := 1 - e.currState }
  else e.create lineIndex

/-- A stride that has repeated often enough.
SRCLINE: pref_stride.cc:249-259 -/
def trainSingle (k : StrideKnobs) (e : StrideIndexEntry) : StrideIndexEntry :=
  if k.singleThresh ≤ e.sCnt e.currState then
    let e := { e with trained := true, numStates := 1 }
    let e := { e with currState := 0 }
    let e := { e with stride := Function.update e.stride 0 (e.stride e.currState) }
    { e with
      prefLastIndex := e.lastIndex + (e.stride 0 * k.startdistance).signExtend 64 }
  else e

/-- One step of two alternating strides ahead of the prefetches.
SRCLINE: pref_stride.cc:269-279, 312-330 -/
def aheadMulti (e : StrideIndexEntry) : StrideIndexEntry :=
  if e.prefCount = e.sCnt e.prefCurrState then
    { e with
      prefLastIndex := e.prefLastIndex + (e.strans e.prefCurrState).signExtend 64
      prefCount := 0
      prefCurrState := 1 - e.prefCurrState }
  else
    { e with
      prefLastIndex := e.prefLastIndex + (e.stride e.prefCurrState).signExtend 64
      prefCount := e.prefCount + 1 }

/-- Two strides that have alternated often enough.
SRCLINE: pref_stride.cc:261-281 -/
def trainMulti (k : StrideKnobs) (e : StrideIndexEntry) : StrideIndexEntry :=
  if k.multiThresh ≤ e.recnt then
    let e := { e with
      trained := true
      prefCount := e.count
      prefCurrState := e.currState
      prefLastIndex := e.lastIndex }
    aheadMulti^[k.startdistance.toInt.toNat] e
  else e

/-! ## Prefetching -/

/-- The loop that sends the prefetches of a single stride: the `tries` tries that are left from
`ii` on.
SRCLINE: pref_stride.cc:289-296 -/
def sendSingle (k : StrideKnobs) (accept : ℕ → Bool) :
    ℕ → ℕ → StrideIndexEntry → StrideIndexEntry × List Addr
  | _, 0, e => (e, [])
  | ii, tries + 1, e =>
      if e.prefSent < k.distance then
        let prefIndex := e.prefLastIndex + (e.stride 0).signExtend 64
        if accept ii then
          let x := sendSingle k accept (ii + 1) tries
            { e with prefLastIndex := prefIndex, prefSent := e.prefSent + 1 }
          (x.1, prefIndex :: x.2)
        else (e, [])
      else (e, [])

/-- The loop that sends the prefetches of two strides.
SRCLINE: pref_stride.cc:309-331 -/
def sendMulti (k : StrideKnobs) (accept : ℕ → Bool) :
    ℕ → ℕ → StrideIndexEntry → StrideIndexEntry × List Addr
  | _, 0, e => (e, [])
  | ii, tries + 1, e =>
      if e.prefSent < k.distance then
        if accept ii then
          let x := sendMulti k accept (ii + 1) tries
            { e.aheadMulti with prefSent := e.prefSent + 1 }
          (x.1, e.aheadMulti.prefLastIndex :: x.2)
        else (e, [])
      else (e, [])

/-- An access that does not go on as it was trained.
SRCLINE: pref_stride.cc:334-348 -/
def untrain (e : StrideIndexEntry) : StrideIndexEntry :=
  { e with
    trained := false
    trainCountMode := false
    numStates := 1
    currState := 0
    stride := fun _ => 0
    sCnt := fun _ => 0
    strans := fun _ => 0
    count := 0
    recnt := 0
    prefSent := 0 }

/-- An access to a trained entry.
SRCLINE: pref_stride.cc:284-349 -/
def follow (k : StrideKnobs) (accept : ℕ → Bool) (e : StrideIndexEntry) (stride : BitVec 32) :
    StrideIndexEntry × List Addr :=
  let e := { e with prefSent := if e.prefSent ≠ 0 then e.prefSent - 1 else e.prefSent }
  if e.numStates = 1 ∧ stride = e.stride 0 then sendSingle k accept 0 k.degree.toNat e
  else if (stride = e.stride e.currState ∧ e.count < e.sCnt e.currState) ∨
      (stride = e.strans e.currState ∧ e.count = e.sCnt e.currState) then
    let e :=
      if e.count = e.sCnt e.currState then
        { e with count := 0, currState := 1 - e.currState }
      else { e with count := e.count + 1 }
    sendMulti k accept 0 k.degree.toNat e
  else (e.untrain, [])

/-- An access to a region that has an entry, with the prefetches that were sent.
SRCLINE: pref_stride.cc:191-350 -/
def access (k : StrideKnobs) (accept : ℕ → Bool) (e : StrideIndexEntry) (lineIndex : Addr) :
    StrideIndexEntry × List Addr :=
  let stride := (lineIndex - e.lastIndex).setWidth 32
  let e := { e with lastIndex := lineIndex }
  if e.trained then follow k accept e stride
  else
    let e := if e.trainCountMode then e.check stride lineIndex else e.learn k stride
    ((e.trainSingle k).trainMulti k, [])

end StrideIndexEntry

/-! ## The tables -/

/-- `pref_stride_c`. -/
structure PrefStride where
  region : ℕ → StrideRegionEntry
  index : ℕ → StrideIndexEntry

/-- A call of `train`: its arguments, the cycle and the answers of the queue. -/
structure StrideAccess where
  tid : ℤ
  lineAddr : Addr
  l2Hit : Bool
  cycle : Counter
  accept : ℕ → Bool

namespace PrefStride

/-- New tables.  The constructors of the entries leave all else uninitialized.
SRCLINE: pref_stride.cc:109-120, pref_stride.h:57-59, 82-84 -/
def init (uninit : PrefStride) : PrefStride where
  region := fun i => { uninit.region i with valid := false }
  index := fun i => { uninit.index i with trained := false }

/-- The search for the entry of a region.
SRCLINE: pref_stride.cc:157-167 -/
def findRegion (k : StrideKnobs) (s : PrefStride) (tid : ℤ) (indexTag : Addr) : Option ℕ :=
  (List.range k.tableN).find? fun ii =>
    (!k.threadIndex || tid == (s.region ii).tid) && indexTag == (s.region ii).tag &&
      (s.region ii).valid

/-- The search for the place of a new entry; `none` is the source's `-1`.
SRCLINE: pref_stride.cc:176-185 -/
def victimFrom (s : PrefStride) : Option ℕ → List ℕ → Option ℕ
  | regionIdx, [] => regionIdx
  | regionIdx, ii :: rest =>
      if (s.region ii).valid = false then some ii
      else
        victimFrom s
          (match regionIdx with
          | none => some ii
          | some j => if (s.region j).lastAccess < (s.region ii).lastAccess then some ii else some j)
          rest

def victim (k : StrideKnobs) (s : PrefStride) : Option ℕ := s.victimFrom none (List.range k.tableN)

/-- `pref_stride_c::create_newentry`.
SRCLINE: pref_stride.cc:353-371 -/
def createNewentry (s : PrefStride) (idx : ℕ) (lineIndex regionTag : Addr) (cycle : Counter) :
    PrefStride where
  region := Function.update s.region idx
    { s.region idx with tag := regionTag, valid := true, lastAccess := cycle.setWidth 32 }
  index := Function.update s.index idx ((s.index idx).create lineIndex)

/-- `pref_stride_c::train`; `none` is an entry outside of the tables.
SRCLINE: pref_stride.cc:145-350 -/
def train (k : StrideKnobs) (s : PrefStride) (x : StrideAccess) : Option (PrefStride × List Addr) :=
  let lineIndex := x.lineAddr >>> k.lineBits
  let indexTag := x.lineAddr >>> k.regionBits
  match s.findRegion k x.tid indexTag with
  | none =>
      if x.l2Hit then some (s, [])
      else
        match s.victim k with
        | none => none
        | some regionIdx => some (s.createNewentry regionIdx lineIndex indexTag x.cycle, [])
  | some regionIdx =>
      let y := (s.index regionIdx).access k x.accept lineIndex
      some
        ({ region := Function.update s.region regionIdx
            { s.region regionIdx with lastAccess := x.cycle.setWidth 32 }
           index := Function.update s.index regionIdx y.1 }, y.2)

end PrefStride

end MacSim.Model
