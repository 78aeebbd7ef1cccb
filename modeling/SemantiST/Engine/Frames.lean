import Mathlib.Data.List.Infix
import SemantiST.Abi
import SemantiST.Testcase
import SemantiST.Lib.Rust

/-!
# The engine's testcase parser

`fuzzer/engine/src/frames.rs`: the records of a testcase text are read one line after the other
into a `TestCase`, whose frames are then expanded to the values of every frame field.
-/

namespace SemantiST.Engine

open Lib

/-! ## Testcases -/

structure Frame where
  index : ℕ
  values : Values
  dtNs : Option ℕ
  deriving DecidableEq

structure TestCase where
  initProfile : Text
  shared : Values
  frames : List Frame
  deriving DecidableEq

/-- The fields a testcase may name, with their defaults, type tokens, integer bounds and string
lengths. -/
structure FrameSchema where
  frameDefaults : Values
  frameTypes : Values
  sharedTypes : Values
  frameBounds : Std.ExtTreeMap Text (ℤ × ℤ) compare
  sharedBounds : Std.ExtTreeMap Text (ℤ × ℤ) compare
  frameStringLengths : Std.ExtTreeMap Text ℕ compare
  sharedStringLengths : Std.ExtTreeMap Text ℕ compare
  frameStringWide : Std.ExtTreeMap Text Bool compare
  sharedStringWide : Std.ExtTreeMap Text Bool compare

/-- The errors of the parser, with what their messages print. -/
inductive FrameError where
  /-- `line {line}: missing comma` -/
  | missingComma (line : ℕ)
  /-- `line {line}: __INIT has type {kind}, expected ENUM` -/
  | initType (line : ℕ) (kind : Text)
  /-- `line {line}: unsupported init profile {value:?}` -/
  | initProfile (line : ℕ) (value : Text)
  /-- `line {line}: bad frame index {index:?}` -/
  | badFrameIndex (line : ℕ) (index : Text)
  /-- `line {line}: unknown shared field {field:?}` -/
  | unknownSharedField (line : ℕ) (field : Text)
  /-- `line {line}: expected frame {expected}, got {cycle}` -/
  | frameOrder (line expected cycle : ℕ)
  /-- `line {line}: __DT has type {kind}, expected TIME` -/
  | dtType (line : ℕ) (kind : Text)
  /-- `line {line}: bad __DT {value:?}` -/
  | badDt (line : ℕ) (value : Text)
  /-- `line {line}: unknown frame field {field:?}` -/
  | unknownFrameField (line : ℕ) (field : Text)
  /-- `line {line}: {field} has type {kind}, expected {expected}` -/
  | fieldType (line : ℕ) (field kind expected : Text)
  /-- `line {line}: invalid integer value {value:?} for {field}` -/
  | invalidInteger (line : ℕ) (value field : Text)
  /-- `line {line}: {field} value {number} outside [{min}, {max}]` -/
  | outside (line : ℕ) (field : Text) (number min max : ℤ)
  /-- `line {line}: {field} string length {length} exceeds {max}` -/
  | stringLength (line : ℕ) (field : Text) (length max : ℕ)
  /-- `frame {index}: missing {name}` -/
  | missingField (index : ℕ) (name : Text)
  deriving DecidableEq

/-! ## Checks of one value -/

/-- The integer `check_numeric_domain` reads. -/
def numericValue (value : Text) : Option ℤ :=
  let text := trim isWhitespace value
  let (negative, unsignedText) :=
    match text with
    | '-' :: rest => (true, rest)
    | '+' :: rest => (false, rest)
    | _ => (false, text)
  match stripHexPrefix unsignedText with
  | some hex =>
    (parseSigned hexDigit 16 i128Min i128Max hex).map fun v => if negative then negI128 v else v
  | none => parseSigned decDigit 10 i128Min i128Max text

def checkNumericDomain (field value : Text) (bounds : Option (ℤ × ℤ)) (line : ℕ) :
    Except FrameError Unit :=
  match bounds with
  | none => .ok ()
  | some (min, max) =>
    match numericValue value with
    | none => .error (.invalidInteger line value field)
    | some number =>
      if number < min ∨ max < number then .error (.outside line field number min max) else .ok ()

def checkStringDomain (field value : Text) (maxLength : Option ℕ) (wide : Bool) (line : ℕ) :
    Except FrameError Unit :=
  match maxLength with
  | none => .ok ()
  | some maxLength =>
    let length := if wide then utf16Length value else value.length
    if maxLength < length then .error (.stringLength line field length maxLength) else .ok ()

def defaultForType (kind : Text) : Text :=
  if kind = "REAL".toList ∨ kind = "LREAL".toList then "0.0".toList
  else if "STRING".toList <+: kind ∨ "WSTRING".toList <+: kind then "A".toList
  else if "ARRAY".toList <:+: kind ∨ kind = "POINTER".toList ∨ "REF_TO".toList <+: kind then
    "0x00".toList
  else "0".toList

/-! ## One record -/

/-- The variables of the parser's loop. -/
structure ParseState where
  testCase : TestCase
  previous : Values
  explicitFields : List (List Text)
  expectedIndex : ℕ

/-- The declared spelling of a name: the first key that equals it but for ASCII case. -/
def canonicalName (types : Values) (field : Text) : Text :=
  (types.keys.find? fun name => eqIgnoreAsciiCase name field).getD field

/-- A name that is not declared is refused, unless nothing is declared. -/
def checkKnown (types : Values) (canonical : Text) (unknown : FrameError) : Except FrameError Unit :=
  if !types.isEmpty && !types.contains canonical then .error unknown else .ok ()

/-- A type token, when there is one, is the declared one. -/
def checkType (types : Values) (canonical : Text) (line : ℕ) (field kind : Text) :
    Except FrameError Unit :=
  match types[canonical]? with
  | some expected =>
    if kind ≠ [] ∧ expected ≠ kind then .error (.fieldType line field kind expected) else .ok ()
  | none => .ok ()

/-- What a shared record and a frame record have in common: the name is resolved and its type
and value are checked. -/
def checkField (types : Values) (bounds : Std.ExtTreeMap Text (ℤ × ℤ) compare)
    (lengths : Std.ExtTreeMap Text ℕ compare) (wides : Std.ExtTreeMap Text Bool compare)
    (unknown : FrameError) (line : ℕ) (field kind value : Text) : Except FrameError Text := do
  let canonical := canonicalName types field
  checkKnown types canonical unknown
  checkType types canonical line field kind
  checkNumericDomain canonical value bounds[canonical]? line
  checkStringDomain canonical value lengths[canonical]? (wides[canonical]?.getD false) line
  return canonical

def parseInit (st : ParseState) (line : ℕ) (kind value : Text) : Except FrameError ParseState :=
  if kind ≠ [] ∧ kind ≠ "ENUM".toList then .error (.initType line kind)
  else if value ≠ "cold".toList then .error (.initProfile line value)
  else .ok { st with testCase := { st.testCase with initProfile := value } }

def parseShared (schema : FrameSchema) (st : ParseState) (line : ℕ) (field kind value : Text) :
    Except FrameError ParseState := do
  let canonical ← checkField schema.sharedTypes schema.sharedBounds schema.sharedStringLengths
    schema.sharedStringWide (.unknownSharedField line field) line field kind value
  return { st with
    testCase := { st.testCase with shared := st.testCase.shared.insert canonical value } }

/-- The values with the type default for every frame field they leave out. -/
def withDefaults (schema : FrameSchema) (values : Values) : Values :=
  schema.frameDefaults.keys.foldl (fun values key =>
    values.insertIfNew key (defaultForType (schema.frameTypes[key]?.getD []))) values

/-- A frame is added when `cycle` is the next one. -/
def openFrame (schema : FrameSchema) (st : ParseState) (cycle : ℕ) : ParseState :=
  if st.testCase.frames.length ≤ cycle then
    { testCase := { st.testCase with
        frames := st.testCase.frames ++ [⟨cycle, withDefaults schema st.previous, none⟩] }
      previous := st.previous
      explicitFields := st.explicitFields ++ [[]]
      expectedIndex := cycle + 1 }
  else st

/-- `f` applied to the last frame. -/
def modifyLastFrame (f : Frame → Frame) (testCase : TestCase) : TestCase :=
  { testCase with frames := testCase.frames.modifyLast f }

def parseDt (st : ParseState) (line : ℕ) (kind value : Text) : Except FrameError ParseState :=
  if kind ≠ [] ∧ kind ≠ "TIME".toList then .error (.dtType line kind)
  else
    match parseUnsigned u64Max value with
    | none => .error (.badDt line value)
    | some dt =>
      .ok { st with testCase := modifyLastFrame (fun f => { f with dtNs := some dt }) st.testCase }

def setField (st : ParseState) (cycle : ℕ) (canonical value : Text) : ParseState :=
  let set (frame : Frame) : Frame := { frame with values := frame.values.insert canonical value }
  { testCase := modifyLastFrame set st.testCase
    previous := (st.testCase.frames.getLast?.map fun f => (set f).values).getD st.previous
    explicitFields := st.explicitFields.modify cycle (·.insert canonical)
    expectedIndex := st.expectedIndex }

/-- A record of frame `cycle`.  (The second test for `__DT`, after the value is stored, is never
reached with that name.) -/
def parseFrameField (schema : FrameSchema) (st : ParseState) (line cycle : ℕ)
    (field kind value : Text) : Except FrameError ParseState :=
  if st.testCase.frames.getLast?.map Frame.index ≠ some cycle ∧ cycle ≠ st.expectedIndex then
    .error (.frameOrder line st.expectedIndex cycle)
  else
    let st := openFrame schema st cycle
    if eqIgnoreAsciiCase field reservedDt then parseDt st line kind value
    else do
      let canonical ← checkField schema.frameTypes schema.frameBounds schema.frameStringLengths
        schema.frameStringWide (.unknownFrameField line field) line field kind value
      return setField st cycle canonical value

def parseRecord (schema : FrameSchema) (st : ParseState) (line : ℕ) (namePart kind value : Text) :
    Except FrameError ParseState :=
  if eqIgnoreAsciiCase namePart reservedInit then parseInit st line kind value
  else
    match splitOnce '.' namePart with
    | none => parseShared schema st line namePart kind value
    | some (index, field) =>
      match parseUnsigned u32Max index with
      | none => .error (.badFrameIndex line index)
      | some cycle => parseFrameField schema st line cycle field kind value

/-- A line that is neither blank nor a comment, cut into its three parts. -/
def parseLine (schema : FrameSchema) (st : ParseState) (line : ℕ) (raw : Text) :
    Except FrameError ParseState :=
  let text := trim isWhitespace raw
  if text = [] ∨ text.head? = some '#' then .ok st
  else
    match splitOnce ',' text with
    | none => .error (.missingComma line)
    | some (namePart, rest) =>
      let (kind, value) := (splitOnce ',' rest).getD (rest, [])
      parseRecord schema st line (trim isWhitespace namePart)
        (toAsciiUppercase (trim isWhitespace kind)) (trim isWhitespace value)

/-! ## The whole text -/

/-- The frame defaults, with the shared value of every field that is also a shared record. -/
def seedValues (schema : FrameSchema) (shared : Values) : Values :=
  shared.foldl (fun inherited name value =>
    if schema.frameDefaults.contains name then inherited.insert name value else inherited)
    schema.frameDefaults

/-- The fields of a frame that it names, over what it inherits. -/
def copyFields (values : Values) (names : List Text) (inherited : Values) : Values :=
  names.foldl (fun m name =>
    match values[name]? with
    | some value => m.insert name value
    | none => m) inherited

/-- A frame's values once more: what it inherits, overwritten by the fields it names. -/
def expandFrame (schema : FrameSchema) (inherited : Values) (explicitFields : List Text)
    (frame : Frame) : Frame :=
  { frame with values := withDefaults schema (copyFields frame.values explicitFields inherited) }

/-- The second pass: every frame inherits from the one before it. -/
def expandFrames (schema : FrameSchema) (inherited : Values) :
    List (List Text) → List Frame → List Frame
  | explicitFields :: rest, frame :: frames =>
    let frame := expandFrame schema inherited explicitFields frame
    frame :: expandFrames schema frame.values rest frames
  | _, _ => []

/-- The first field of `names` a frame lacks. -/
def checkComplete (schema : FrameSchema) (frame : Frame) : Except FrameError Unit :=
  match schema.frameDefaults.keys.find? fun name => !frame.values.contains name with
  | some name => .error (.missingField frame.index name)
  | none => .ok ()

def initState (schema : FrameSchema) : ParseState where
  testCase := { initProfile := "cold".toList, shared := ∅, frames := [] }
  previous := schema.frameDefaults
  explicitFields := []
  expectedIndex := 0

/-- Parse and expand a canonical or handwritten testcase. -/
def parseTestcase (text : Text) (schema : FrameSchema) : Except FrameError TestCase := do
  let st ← ((lines text).zipIdx 1).foldlM (fun st p => parseLine schema st p.2 p.1)
    (initState schema)
  let frames := expandFrames schema (seedValues schema st.testCase.shared) st.explicitFields
    st.testCase.frames
  frames.forM (checkComplete schema)
  return { st.testCase with frames := frames }

end SemantiST.Engine
