import Mathlib.Data.List.Basic
import Mathlib.Data.String.Basic
import Mathlib.Logic.Function.Basic

/-!
# The knobs container

`KnobsContainer` keeps every value it reads in one of two maps, one for files and single updates
and one for command lines, and applies a whole map each time: first the values to the knobs
that the map names, then, in one pass over all knobs in name order, the value of each parent
that was provided to the children that were not.  A string knob never counts as provided.

The tokens of the tokenizer outlive the function that read them, so they are part of the state.
`KNOB_UOP_LATENCY_MAP`, which is decoded at the end of an application, is left out.
-/

set_option autoImplicit false

namespace MacSim.Model

/-! ## The tokenizer -/

/-- The tokens of a text, with the characters of the current one in reverse.

SRCLINE: knob.cc:244-255 -/
def tokenChars (delim : Char) : List Char → List Char → List String
  | [], cur => if cur = [] then [] else [String.ofList cur.reverse]
  | c :: cs, cur =>
    if c = delim then
      (if cur = [] then [] else [String.ofList cur.reverse]) ++ tokenChars delim cs []
    else tokenChars delim cs (c :: cur)

/-- `tokenizeString`: the maximal parts of a text without the delimiter. -/
def tokenizeString (str : String) (delim : Char) : List String := tokenChars delim str.toList []

/-! ## Knobs -/

/-- The knobs that are registered.  A knob has a name, the name of a parent or none, and a
default; `parse` is what the stream extraction of its type makes of a text. -/
structure KnobTable (V : Type) where
  /-- in the order of the map `m_theKnobs` -/
  names : List String
  sorted : names.Pairwise (· < ·)
  parentName : String → Option String
  /-- the parent relation is acyclic -/
  depth : String → ℕ
  parent_known : ∀ k p, parentName k = some p → p ∈ names ∧ depth p < depth k
  isString : String → Bool
  parse : String → String → V
  default : String → V

/-- A `map<string, string>`. -/
abbrev TextMap := List (String × String)

namespace TextMap

/-- The value of a key. -/
def find (map : TextMap) (key : String) : Option String := map.lookup key

/-- `map[key] = value`, in key order. -/
def assign (map : TextMap) (key value : String) : TextMap :=
  match map with
  | [] => [(key, value)]
  | (k, v) :: rest =>
    if key < k then (key, value) :: (k, v) :: rest
    else if k = key then (key, value) :: rest
    else (k, v) :: assign rest key value

/-- `map.insert(pair(key, value))`, which keeps an existing value. -/
def insert (map : TextMap) (key value : String) : TextMap :=
  if (map.find key).isSome then map else map.assign key value

end TextMap

/-- `KnobsContainer` with the fields of its knobs. -/
structure Knobs (V : Type) where
  value : String → V
  valueString : String → String
  valueProvided : String → Bool
  valuesFromFile : TextMap
  valuesFromCommandLineSwitches : TextMap
  /-- `m_TokensVector` of the tokenizer -/
  tokens : List String

namespace Knobs

variable {V : Type}

/-- The container after construction.

SRCLINE: knob.h:81-86, knob.h:170-172 -/
def init (table : KnobTable V) : Knobs V where
  value := table.default
  valueString := fun _ => ""
  valueProvided := fun _ => false
  valuesFromFile := []
  valuesFromCommandLineSwitches := []
  tokens := []

/-- `initFromString` of a knob; that of a string does not set the provided flag.

SRCLINE: knob.h:186-200, knob.h:275-278 -/
def initFromString (table : KnobTable V) (s : Knobs V) (k strVal : String) : Knobs V :=
  { s with
    value := Function.update s.value k (table.parse k strVal)
    valueString := Function.update s.valueString k strVal
    valueProvided :=
      if table.isString k then s.valueProvided else Function.update s.valueProvided k true }

/-- The first loop of `applyValuesToKnobs`; a name that is not registered is reported.

SRCLINE: knob.cc:151-163 -/
def applyEntries (table : KnobTable V) (s : Knobs V) (values : TextMap) : Knobs V :=
  values.foldl
    (fun s entry => if entry.1 ∈ table.names then s.initFromString table entry.1 entry.2 else s) s

/-- One knob of the second loop of `applyValuesToKnobs`.

SRCLINE: knob.cc:164-180 -/
def inherit (table : KnobTable V) (s : Knobs V) (k : String) : Knobs V :=
  match table.parentName k with
  | none => s
  | some p =>
    if s.valueProvided p = true ∧ s.valueProvided k = false then
      s.initFromString table k (s.valueString p)
    else s

/-- `applyValuesToKnobs`.

SRCLINE: knob.cc:145-180 -/
def applyValuesToKnobs (table : KnobTable V) (s : Knobs V) (values : TextMap) : Knobs V :=
  if values = [] then s
  else table.names.foldl (inherit table) (s.applyEntries table values)

/-- The name and the value of a line, when it has both and is no comment. -/
def entryOf (tokens : List String) : Option (String × String) :=
  match tokens with
  | name :: value :: _ => if name.toList.head? = some '#' then none else some (name, value)
  | _ => none

/-- `createEntryFromtext`: the tokens of the text come behind those left in the tokenizer.

SRCLINE: knob.cc:90-110 -/
def createEntryFromtext (s : Knobs V) (text : String) : Knobs V :=
  let tokens := s.tokens ++ tokenizeString text ' '
  match entryOf tokens with
  | none => { s with tokens := [] }
  | some (name, value) =>
    { s with tokens := [], valuesFromFile := s.valuesFromFile.assign name value }

/-- The loop of `applyCommandLineArguments`, with its result.

SRCLINE: knob.cc:198-226 -/
def readArguments (s : Knobs V) : List String → Knobs V × Bool
  | [] => (s, true)
  | pArg :: args =>
    if pArg.toList.length < 3 then s.readArguments args
    else if pArg.toList.take 2 = ['-', '-'] then
      let tokens := tokenizeString (String.ofList (pArg.toList.drop 2)) '='
      let s := { s with tokens := tokens }
      match tokens with
      | knobName :: value :: _ =>
        { s with
          valuesFromCommandLineSwitches :=
            s.valuesFromCommandLineSwitches.insert knobName value }.readArguments args
      | _ => (s, false)
    else s.readArguments args

/-! ## Steps -/

/-- The calls that give values.  A file that cannot be opened has no lines. -/
inductive Call where
  | applyParamFile (lines : List String)
  | updateKnob (key value : String)
  | applyCommandLineArguments (args : List String)

/-- What a call reads into the maps, and the map that it applies then, if it does. -/
def read (s : Knobs V) : Call → Knobs V × TextMap
  | .applyParamFile lines =>
    let s := lines.foldl createEntryFromtext s
    (s, s.valuesFromFile)
  | .updateKnob key value =>
    let s := s.createEntryFromtext (key ++ " " ++ value)
    (s, s.valuesFromFile)
  | .applyCommandLineArguments args =>
    let (s, ok) := s.readArguments args
    (s, if ok then s.valuesFromCommandLineSwitches else [])

/-- One call.

SRCLINE: knob.cc:63-77, knob.cc:123-131, knob.cc:195-229 -/
def call (table : KnobTable V) (s : Knobs V) (c : Call) : Knobs V :=
  (s.read c).1.applyValuesToKnobs table (s.read c).2

/-- Any sequence of calls. -/
def run (table : KnobTable V) (s : Knobs V) (calls : List Call) : Knobs V :=
  calls.foldl (call table) s

end Knobs

end MacSim.Model
