import SemantiST.Engine.Bundle
import SemantiST.Lib.Fold
import SemantiST.Lib.Map
import SemantiST.Lib.Python

/-!
# The corpus's testcases

`fuzzer/corpus/frames.py`: the parser, the validation, the canonical text and the hashes of the
Python side.  A `dict` of fields is an ordered map: its own order is that of the ABI, which the
canonical text follows.
-/

namespace SemantiST.Corpus

open Lib

/-! ## Data -/

/-- `FrameFormatError`, with what its messages print, and the errors of the built-in functions. -/
inductive FrameFormatError where
  /-- `invalid record: {line!r}` -/
  | invalidRecord (line : Text)
  /-- `field {name!r} has type {token!r}, expected {expected!r}` -/
  | fieldType (name token expected : Text)
  /-- `unsupported init profile {value!r}` -/
  | initProfile (value : Text)
  /-- `frame field {field_name!r} needs a frame prefix` -/
  | needsFramePrefix (field : Text)
  /-- `unknown shared field {field_name!r}` -/
  | unknownSharedField (field : Text)
  /-- `field {field_name!r} is not a frame field` -/
  | notFrameField (field : Text)
  /-- `unknown frame field {field_name!r}` -/
  | unknownFrameField (field : Text)
  /-- `frame indices must be consecutive from 0, got {indices}` -/
  | frameIndices (indices : List ℕ)
  /-- `frame {index} delta_t {dt_ns} outside contract range` -/
  | dtContract (index : ℕ) (dt : ℤ)
  /-- `invalid TIME literal {text!r}` -/
  | timeLiteral (text : Text)
  /-- `field {name!r} string length {units} exceeds {length}` -/
  | stringLength (field : Text) (units length : ℕ)
  /-- `field {name!r} has invalid pointer value {value!r}` -/
  | pointerValue (field value : Text)
  /-- `field {name!r} has invalid array value {value!r}` -/
  | arrayValue (field value : Text)
  /-- `field {name!r} has invalid array bytes {value!r}` -/
  | arrayBytes (field value : Text)
  /-- `field {name!r} array bytes {bytes} exceeds {expected}` -/
  | arrayLength (field : Text) (bytes expected : ℕ)
  /-- `field {name!r} has invalid {type} value {value!r}` -/
  | floatValue (field type value : Text)
  /-- `field {name!r} has invalid integer value {value!r}` -/
  | integerValue (field value : Text)
  /-- `field {name!r} has unsupported scalar width {bits}` -/
  | scalarWidth (field : Text) (bits : ℕ)
  /-- `field {name!r} value {number} outside [{minimum}, {maximum}]` -/
  | outside (field : Text) (number minimum maximum : ℤ)
  /-- `unknown shared fields: {names}` -/
  | unknownSharedFields (names : List Text)
  /-- `frame {index}: missing {missing}, extra {extra}` -/
  | frameFields (index : ℕ) (missing extra : List Text)
  /-- `frame {index}: delta_t outside uint64 range` -/
  | dtRange (index : ℕ)
  /-- What `int`, `float` or `round` raises. -/
  | builtin (text : Text)
  deriving DecidableEq

structure Frame where
  index : ℕ
  values : Values
  dtNs : Option ℤ
  deriving DecidableEq

structure TestCase where
  initProfile : Text
  shared : Values
  frames : List Frame
  fieldOrder : List Text
  types : Values
  sharedOrder : List Text

/-! ## Names -/

variable (u : UnicodeData)

/-- `{param.name.upper(): param for param in params}`, where a later parameter wins. -/
def byUpperName (params : List Param) (key : Text) : Option Param :=
  params.reverse.find? fun param => u.upperText param.name = key

/-- The name, the type token and the value of a record. -/
def splitRecord (line : Text) : Except FrameFormatError (Text × Text × Text) :=
  match splitOnce ',' line with
  | none => .error (.invalidRecord line)
  | some (name, rest) =>
    match splitOnce ',' rest with
    | none => .error (.invalidRecord line)
    | some (ty, value) =>
      if trim isSpace name = [] then .error (.invalidRecord line)
      else .ok (trim isSpace name, u.upperText (trim isSpace ty), trim isSpace value)

/-- An explicit type token is the expected one. -/
def checkTypeToken (token expected name : Text) : Except FrameFormatError Unit :=
  if token ≠ [] ∧ token ≠ u.upperText expected then .error (.fieldType name token expected)
  else .ok ()

/-- `^(\d+)\.(.+)$`: the digits before the first other character, a dot, and the field. -/
def cyclePrefix (name : Text) : Option (Text × Text) :=
  let digits := name.takeWhile fun c => (u.decimal c).isSome
  match name.drop digits.length with
  | '.' :: field => if digits ≠ [] ∧ field ≠ [] ∧ '\n' ∉ field then some (digits, field) else none
  | _ => none

def splitCycleName (name : Text) : Except FrameFormatError (Option ℕ × Text) :=
  match cyclePrefix u name with
  | none => .ok (none, name)
  | some (digits, field) =>
    match u.int 10 digits with
    | some cycle => .ok (some cycle.toNat, field)
    | none => .error (.builtin digits)

/-! ## Time steps -/

/-- The nanoseconds of a unit of a TIME literal. -/
def unitFactor (unit : Text) : Option ℕ :=
  let unit := unit.map Char.toLower
  if unit = "d".toList then some 86400000000000
  else if unit = "h".toList then some 3600000000000
  else if unit = "m".toList then some 60000000000
  else if unit = "s".toList then some 1000000000
  else if unit = "ms".toList then some 1000000
  else if unit = "us".toList then some 1000
  else if unit = "ns".toList then some 1
  else none

/-- What follows `t#`. -/
def stripTimePrefix : Text → Option Text
  | 't' :: '#' :: rest | 'T' :: '#' :: rest => some rest
  | _ => none

/-- `parse_time_literal`: a decimal magnitude times the factor of its unit, in doubles. -/
def parseTimeLiteral (text : Text) : Except FrameFormatError ℤ :=
  match stripTimePrefix (trim isSpace text) with
  | none => .error (.timeLiteral text)
  | some rest =>
    let rest := rest.dropWhile isSpace
    let magnitude := rest.takeWhile fun c => c.isDigit || c == '.'
    let unit := (rest.drop magnitude.length).dropWhile isSpace
    match splitOnce '.' magnitude with
    | some (whole, fraction) =>
      if whole = [] ∨ fraction = [] ∨ '.' ∈ fraction then .error (.timeLiteral text)
      else timeValue text magnitude unit
    | none => if magnitude = [] then .error (.timeLiteral text) else timeValue text magnitude unit
where
  timeValue (text magnitude unit : Text) : Except FrameFormatError ℤ :=
    match unitFactor unit with
    | none => .error (.timeLiteral text)
    | some factor =>
      match ((mantissaValue magnitude).bind nearestDouble).bind fun m => nearestDouble (m * factor) with
      | none => .error (.builtin text)
      | some ns => .ok (roundHalfEven ns)

def parseDt (value : Text) : Except FrameFormatError ℤ :=
  let text := trim isSpace value
  if (stripTimePrefix text).isSome then parseTimeLiteral text
  else
    match u.int 0 text with
    | some dt => .ok dt
    | none => .error (.builtin text)

/-! ## Validation -/

def validateString (param : Param) (wide : Bool) (length : ℕ) (value : Text) :
    Except FrameFormatError Unit :=
  let units := if wide then utf16Length value else value.length
  if length < units then .error (.stringLength param.name units length) else .ok ()

def validatePointer (param : Param) (value : Text) : Except FrameFormatError Unit :=
  if value ≠ [] ∧ stripHexPrefix value = none then .error (.pointerValue param.name value) else .ok ()

def validateArray (param : Param) (value : Text) : Except FrameFormatError Unit :=
  match stripHexPrefix value with
  | none => .error (.arrayValue param.name value)
  | some digits =>
    if digits.length % 2 ≠ 0 ∨ ¬digits.all (fun c => (hexDigit c).isSome) then
      .error (.arrayBytes param.name value)
    else
      let expected := param.spec.byteSize
      if expected ≠ 0 ∧ expected < digits.length / 2 then
        .error (.arrayLength param.name (digits.length / 2) expected)
      else .ok ()

/-- A finite number, which for a REAL has a single-precision neighbour. -/
def validateFloat (param : Param) (type : ScalarType) (value : Text) : Except FrameFormatError Unit :=
  match u.floatMagnitude value with
  | none => .error (.floatValue param.name type.name value)
  | some d =>
    if type = .real ∧ packsSingle d = false then .error (.floatValue param.name type.name value)
    else .ok ()

/-- `[+-]?0[xX][0-9a-fA-F]+`. -/
def isHexLiteral (text : Text) : Bool :=
  let digits :=
    match text with
    | '-' :: rest | '+' :: rest => rest
    | _ => text
  (stripHexPrefix digits).any fun hex => hex ≠ [] && hex.all fun c => (hexDigit c).isSome

/-- The integer `_validate_value` reads. -/
def integerValue (value : Text) : Option ℤ :=
  let text := trim isSpace value
  if isHexLiteral text then u.int 16 text else u.int 10 text

/-- The smallest and the largest value of an integer type. -/
def integerRange (type : ScalarType) : ℤ × ℤ :=
  let bits := type.size * 8
  let (minimum, maximum) :=
    if type.unsigned then (0, 2 ^ bits - 1) else (-2 ^ (bits - 1), 2 ^ (bits - 1) - 1)
  (minimum, if type = .bool then 1 else maximum)

def validateInteger (param : Param) (type : ScalarType) (value : Text) :
    Except FrameFormatError Unit :=
  match integerValue u value with
  | none => .error (.integerValue param.name value)
  | some number =>
    let bits := type.size * 8
    if bits < 1 ∨ 64 < bits then .error (.scalarWidth param.name bits)
    else
      let (minimum, maximum) := integerRange type
      if number < minimum ∨ maximum < number then
        .error (.outside param.name number minimum maximum)
      else .ok ()

def validateValue (param : Param) (value : Text) : Except FrameFormatError Unit :=
  match param.spec with
  | .string wide length => validateString param wide length value
  | .pointer _ => validatePointer param value
  | .array _ _ => validateArray param value
  | .aggregate _ _ => .ok ()
  | .scalar type =>
    if type.isReal then validateFloat u param type value else validateInteger u param type value

/-- The fields of `names` without those of `others`, sorted. -/
def missingFrom (others : List Text) (names : List Text) : List Text :=
  sortedSet (names.filter fun name => name ∉ others)

def validateFrame (abi : TargetAbi) (frame : Frame) : Except FrameFormatError Unit := do
  let names := abi.frameActionParams.map Param.name
  let missing := missingFrom frame.values.keys names
  let extra := missingFrom names frame.values.keys
  if missing ≠ [] ∨ extra ≠ [] then .error (.frameFields frame.index missing extra)
  else if frame.dtNs.any fun dt => dt < 0 ∨ (u64Max : ℤ) < dt then .error (.dtRange frame.index)
  else
    frame.values.toList.forM fun (name, value) =>
      match abi.frameActionParams.find? fun param => param.name = name with
      | some param => validateValue u param value
      | none => .ok ()

def validate (testcase : TestCase) (abi : TargetAbi) : Except FrameFormatError Unit := do
  let names := abi.sharedParams.map Param.name
  let unknown := missingFrom names testcase.shared.keys
  if unknown ≠ [] then .error (.unknownSharedFields unknown)
  else
    testcase.shared.toList.forM fun (name, value) =>
      match abi.sharedParams.find? fun param => param.name = name with
      | some param => validateValue u param value
      | none => .ok ()
    testcase.frames.forM (validateFrame u abi)

/-! ## The parser -/

/-- The variables of the loop over the lines. -/
structure ParseState where
  initProfile : Text := "cold".toList
  shared : Values := ∅
  rawFrames : Std.ExtTreeMap ℕ (List (Text × Text)) compare := ∅
  dtByFrame : Std.ExtTreeMap ℕ ℤ compare := ∅

/-- A record without a frame number: the init profile, or a shared field. -/
def readShared (abi : TargetAbi) (field ty value : Text) : Except FrameFormatError Assignment := do
  if u.upperText field = reservedInit then
    checkTypeToken u ty "ENUM".toList field
    if value ≠ "cold".toList then .error (.initProfile value) else .ok .init
  else
    match byUpperName u abi.sharedParams (u.upperText field) with
    | none =>
      if (byUpperName u abi.frameActionParams (u.upperText field)).isSome then
        .error (.needsFramePrefix field)
      else .error (.unknownSharedField field)
    | some param => do
      checkTypeToken u ty param.spec.typeToken field
      return .shared param.name value

/-- A record of a frame: its time step, or a field. -/
def readFrame (abi : TargetAbi) (cycle : ℕ) (field ty value : Text) :
    Except FrameFormatError Assignment := do
  if u.upperText field = reservedDt then
    checkTypeToken u ty "TIME".toList field
    let dt ← parseDt u value
    return .dt cycle dt
  else
    match byUpperName u abi.frameActionParams (u.upperText field) with
    | none =>
      if (byUpperName u (abi.stateFields ++ abi.params) (u.upperText field)).isSome then
        .error (.notFrameField field)
      else .error (.unknownFrameField field)
    | some param => do
      checkTypeToken u ty param.spec.typeToken field
      return .field cycle param.name value

/-- What the body of the loop reads off a line. -/
def readLine (abi : TargetAbi) (raw : Text) : Except FrameFormatError (Option Assignment) := do
  let line := trim isSpace raw
  if line = [] then return none
  let (name, ty, value) ← splitRecord u line
  let (cycle, field) ← splitCycleName u name
  match cycle with
  | none => some <$> readShared u abi field ty value
  | some cycle => some <$> readFrame u abi cycle field ty value

/-- What the body of the loop stores. -/
def ParseState.assign (st : ParseState) : Assignment → ParseState
  | .init => { st with initProfile := "cold".toList }
  | .shared name value => { st with shared := st.shared.insert name value }
  | .dt cycle dt => { st with dtByFrame := st.dtByFrame.insert cycle dt }
  | .field cycle name value => { st with
      rawFrames := st.rawFrames.insert cycle ((st.rawFrames[cycle]?).getD [] ++ [(name, value)]) }

def parseLine (abi : TargetAbi) (st : ParseState) (raw : Text) :
    Except FrameFormatError ParseState := do
  match ← readLine u abi raw with
  | none => return st
  | some a => return st.assign a

/-- The frame numbers that occur, in order. -/
def ParseState.indices (st : ParseState) : List ℕ :=
  sortedSet (st.rawFrames.keys ++ st.dtByFrame.keys)

/-- The values with the shared value of one field, if it has one. -/
def withShared (shared values : Values) (param : Param) : Values :=
  match shared[param.name]? with
  | some value => values.insert param.name value
  | none => values

/-- What the first frame starts from. -/
def initialValues (abi : TargetAbi) (shared : Values) : Values :=
  let schema := abi.frameActionParams
  let defaults := Engine.tableOf (fun spec => some spec.defaultFor) schema
  schema.foldl (withShared shared) defaults

/-- The values of frame `index`, after those of the frame before it. -/
def frameValues (abi : TargetAbi) (st : ParseState) (previous : Values) (index : ℕ) : Values :=
  abi.frameActionParams.foldl (fun values param =>
    values.insertIfNew param.name param.spec.defaultFor)
    (insertAll previous ((st.rawFrames[index]?).getD []))

/-- The time step of frame `index`; a contract range asks for one in every frame. -/
def frameDt (st : ParseState) (scanPeriodNs : ℤ) (dtRangeNs : Option (ℤ × ℤ)) (index : ℕ) :
    Except FrameFormatError (Option ℤ) :=
  let dt := (st.dtByFrame[index]?).or (dtRangeNs.map fun _ => scanPeriodNs)
  match dt, dtRangeNs with
  | some dt, some (lo, hi) =>
    if dt < lo ∨ hi < dt then .error (.dtContract index dt) else .ok (some dt)
  | dt, _ => .ok dt

def expandFrames (abi : TargetAbi) (st : ParseState) (scanPeriodNs : ℤ)
    (dtRangeNs : Option (ℤ × ℤ)) : Values → List ℕ → Except FrameFormatError (List Frame)
  | _, [] => .ok []
  | previous, index :: indices => do
    let values := frameValues abi st previous index
    let dt ← frameDt st scanPeriodNs dtRangeNs index
    let frames ← expandFrames abi st scanPeriodNs dtRangeNs values indices
    return ⟨index, values, dt⟩ :: frames

/-- Parse and canonicalize a testcase. -/
def parseTestcase (text : Text) (abi : TargetAbi) (scanPeriodNs : ℤ)
    (dtRangeNs : Option (ℤ × ℤ)) : Except FrameFormatError TestCase := do
  let st ← (splitlines text).foldlM (parseLine u abi) {}
  let indices := st.indices
  if indices ≠ List.range indices.length then .error (.frameIndices indices)
  else
    let previous := initialValues abi st.shared
    let frames ← expandFrames abi st scanPeriodNs dtRangeNs previous (List.range indices.length)
    let testcase : TestCase := {
      initProfile := st.initProfile
      shared := st.shared
      frames := if frames = [] then [⟨0, previous, none⟩] else frames
      fieldOrder := abi.frameActionParams.map Param.name
      types := Engine.tableOf (fun spec => some spec.typeToken) (abi.stateFields ++ abi.params)
      sharedOrder := abi.sharedParams.map Param.name }
    validate u testcase abi
    return testcase

/-! ## The canonical text -/

namespace TestCase

variable (testcase : TestCase)

/-- `types.get(name, 'INT')`. -/
def typeOf (name : Text) : Text := (testcase.types[name]?).getD "INT".toList

def sharedLines : List Text :=
  (if testcase.sharedOrder = [] then testcase.shared.keys else testcase.sharedOrder).filterMap
    fun name => (testcase.shared[name]?).map fun value =>
      Engine.record name (testcase.typeOf name) value

def frameLines (includeDt : Bool) (frame : Frame) : List Text :=
  ((if testcase.fieldOrder = [] then frame.values.keys else testcase.fieldOrder).filterMap
    fun name => (frame.values[name]?).map fun value =>
      Engine.record (Engine.frameName frame.index name) (testcase.typeOf name) value) ++
  match includeDt, frame.dtNs with
  | true, some dt =>
    [Engine.record (Engine.frameName frame.index reservedDt) "TIME".toList (intText dt)]
  | _, _ => []

def canonical (includeDt : Bool) : Text :=
  unlines ((if testcase.initProfile ≠ "cold".toList then
      [Engine.record reservedInit "ENUM".toList testcase.initProfile] else []) ++
    testcase.sharedLines ++ testcase.frames.flatMap (testcase.frameLines includeDt))

end TestCase

/-! ## Hashes -/

def fnvOffset : ℕ := 14695981039346656037
def fnvPrime : ℕ := 1099511628211
def frameSeparator : UInt8 := 0x1e

def fnv1a64 (data : List UInt8) (seed : ℕ) : ℕ :=
  data.foldl (fun value byte => ((value ^^^ byte.toNat) * fnvPrime) &&& 0xFFFFFFFFFFFFFFFF) seed

/-- `text.encode("utf-8")`. -/
def encodeUtf8 (text : Text) : List UInt8 := text.flatMap String.utf8EncodeChar

/-- `n.to_bytes(8, "little")`. -/
def toBytes8 (n : ℕ) : List UInt8 := (List.range 8).map fun i => UInt8.ofNat (n / 256 ^ i)

def Frame.hash (frame : Frame) : ℕ :=
  let fields := frame.values.toList.flatMap fun p => p.1 ++ '=' :: (p.2 ++ [';'])
  let dt :=
    match frame.dtNs with
    | some dt => reservedDt ++ '=' :: (intText dt ++ [';'])
    | none => []
  fnv1a64 (encodeUtf8 (fields ++ dt)) fnvOffset

namespace TestCase

def frameHashes (testcase : TestCase) : List ℕ := testcase.frames.map Frame.hash

/-- The rolling hash of the frames so far, after each of them. -/
def rollingHashes : ℕ → List ℕ → List ℕ
  | _, [] => []
  | rolling, hash :: hashes =>
    let rolling := fnv1a64 (toBytes8 hash ++ [frameSeparator]) rolling
    rolling :: rollingHashes rolling hashes

def prefixHashes (testcase : TestCase) : List ℕ := rollingHashes fnvOffset testcase.frameHashes

end TestCase

end SemantiST.Corpus
