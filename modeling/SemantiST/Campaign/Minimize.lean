import SemantiST.Campaign.Probe
import SemantiST.Corpus.Frames
import SemantiST.Lib.State

/-!
# Shortening a testcase

`minimize` (`fuzzer/pipeline/minimize.py`): frames are deleted and values made simpler as long as the
probe of the result is taken for the same candidate.  What a probe answers, and whether there is still
time for it, comes from outside.
-/

namespace SemantiST.Campaign

open Lib Corpus

/-! ## The outside -/

/-- What each probe finds and each look at the clock says, by their number. -/
structure World where
  observe : ℕ → Text → Observation
  inTime : ℕ → Bool

/-- The looks at the clock so far, and the probes with what they found. -/
structure Log where
  looks : ℕ := 0
  probes : List (Text × Observation) := []

section

variable (world : World)

def look : StateM Log Bool := do
  let log ← get
  set { log with looks := log.looks + 1 }
  pure (world.inTime log.looks)

def probe (testcase : Text) : StateM Log Observation := do
  let log ← get
  let observation := world.observe log.probes.length testcase
  set { log with probes := log.probes ++ [(testcase, observation)] }
  pure observation

/-- What stands for a probe for which no time is left. -/
def deadlineExhausted : Observation where
  timedOut := true
  stderr := "campaign deadline exhausted".toList

def probeWithDeadline (testcase : Text) : StateM Log Observation := do
  if ← look world then probe world testcase else pure deadlineExhausted

end

/-! ## Testcases from frames -/

variable (u : UnicodeData) (abi : TargetAbi)

/-- The values of a frame over those of the frame before it. -/
def mergeValues (previous values : Values) : Except FrameFormatError Values :=
  values.toList.foldlM (fun merged (key, value) =>
    match abi.frameActionParams.find? fun param => u.upperText param.name = u.upperText key with
    | none => .error (.unknownFrameField key)
    | some param => .ok (merged.insert param.name value)) previous

def buildFrames (frameDtNs : List (Option ℤ)) : ℕ → Values → List Values →
    Except FrameFormatError (List Frame)
  | _, _, [] => .ok []
  | index, previous, values :: rest => do
    let merged ← mergeValues u abi previous values
    let frames ← buildFrames frameDtNs (index + 1) merged rest
    return ⟨index, merged, frameDtNs[index]?.join⟩ :: frames

/-- `build_testcase`. -/
def buildTestcase (frames : List Values) (shared : Values) (initProfile : Text)
    (frameDtNs : List (Option ℤ)) (includeDt : Bool) : Except FrameFormatError Text := do
  let frames ← buildFrames u abi frameDtNs 0 (initialValues abi shared) frames
  let testcase : TestCase := {
    initProfile
    shared
    frames
    fieldOrder := abi.frameActionParams.map Param.name
    types := Engine.tableOf (fun spec => some spec.typeToken) (abi.stateFields ++ abi.params)
    sharedOrder := abi.sharedParams.map Param.name }
  abi.sharedParams.forM fun param =>
    match testcase.shared[param.name]? with
    | some value => validateValue u param value
    | none => .ok ()
  testcase.frames.forM fun frame => abi.frameActionParams.forM fun param =>
    match frame.values[param.name]? with
    | some value => validateValue u param value
    | none => .ok ()
  return testcase.canonical includeDt

def encode (original : TestCase) (frames : List Frame) : Except FrameFormatError Text :=
  buildTestcase u abi (frames.map Frame.values) original.shared original.initProfile
    (frames.map Frame.dtNs) (frames.any fun frame => frame.dtNs.isSome)

/-! ## Shortening -/

structure Minimized where
  testcase : Text
  frames : ℕ
  depth : Option ℤ
  removed : ℕ
  simplified : ℕ

/-- What the minimizer compares. -/
def Info.minimizeSignature (info : Info) : Text × Option ℕ × Option Source :=
  (info.oracle, info.runtimeId, info.source)

inductive Failure where
  | timeout
  | format (error : FrameFormatError)

variable (world : World) (index : RuntimeIndex) (signature : Text × Option ℕ × Option Source)
  (original : TestCase)

/-- A program that probes and may fail. -/
abbrev Shortening := ExceptT Failure (StateM Log)

/-- A probe within the time that is left for shortening. -/
def boundedProbe (testcase : Text) : Shortening Observation := do
  if !(← (look world : StateM Log Bool)) then throw .timeout
  (probeWithDeadline world testcase : StateM Log Observation)

/-- The frames still lead to the candidate. -/
def triggers (frames : List Frame) : Shortening Bool := do
  match encode u abi original frames with
  | .error _ => return false
  | .ok data =>
    let observation ← boundedProbe world data
    return (classify observation index).map Info.minimizeSignature == some signature

def blocks : List ℕ := [32, 16, 8, 4, 2, 1]

/-- The first block of frames at a place that can be left out. -/
def deleteBlock (frames : List Frame) (place : ℕ) : List ℕ → Shortening (Option (List Frame × ℕ))
  | [] => return none
  | block :: rest => do
    let trial := frames.take place ++ frames.drop (place + block)
    if frames.length < place + block ∨ trial = [] then deleteBlock frames place rest
    else if ← triggers u abi world index signature original trial then return some (trial, block)
    else deleteBlock frames place rest

/-- The loop over the places: each round deletes frames or goes on to the next place. -/
def deleteFrames : ℕ → List Frame → ℕ → ℕ → Shortening (List Frame × ℕ)
  | 0, frames, _, removed => return (frames, removed)
  | fuel + 1, frames, place, removed => do
    if place < frames.length then
      match ← deleteBlock u abi world index signature original frames place blocks with
      | some (trial, block) => deleteFrames fuel trial place (removed + block)
      | none => deleteFrames fuel frames (place + 1) removed
    else return (frames, removed)

/-- Rounds of deletion, until one changes nothing. -/
def deleteRounds : ℕ → List Frame → ℕ → Shortening (List Frame × ℕ)
  | 0, frames, removed => return (frames, removed)
  | rounds + 1, frames, removed => do
    let (frames', removed') ← deleteFrames u abi world index signature original frames.length frames 0 removed
    if removed' = removed then return (frames', removed')
    else deleteRounds rounds frames' removed'

def setValue (frames : List Frame) (place : ℕ) (name value : Text) : List Frame :=
  frames.modify place fun frame => { frame with values := frame.values.insert name value }

/-- The first of some simpler values that still leads to the candidate. -/
def simplifyValue (frames : List Frame) (place : ℕ) (name current : Text) :
    List Text → Shortening (Option (List Frame))
  | [] => return none
  | value :: rest => do
    if value = current then simplifyValue frames place name current rest
    else if ← triggers u abi world index signature original (setValue frames place name value) then
      return some (setValue frames place name value)
    else simplifyValue frames place name current rest

def simplerValues (name current : Text) : List Text :=
  ((abi.params.find? fun param => param.name = name).elim current fun param => param.spec.defaultFor) ::
    if current = "0".toList ∨ current = "0.0".toList then [] else ["0".toList, "1".toList]

def simplifyValues (frames : List Frame) (simplified : ℕ) : List (ℕ × Text) → Shortening (List Frame × ℕ)
  | [] => return (frames, simplified)
  | (place, name) :: rest => do
    match (frames[place]?).bind fun frame => frame.values[name]? with
    | none => simplifyValues frames simplified rest
    | some current =>
      match ← simplifyValue u abi world index signature original frames place name current
        (simplerValues abi name current) with
      | some frames' => simplifyValues frames' (simplified + 1) rest
      | none => simplifyValues frames simplified rest

/-- The fields of all frames, in turn. -/
def fieldPlaces (frames : List Frame) : List (ℕ × Text) :=
  frames.zipIdx.flatMap fun (frame, place) =>
    (original.fieldOrder.filter fun name => frame.values.contains name).map fun name => (place, name)

def scanPeriodNs : ℤ := 10000000

def parse (testcase : Text) : Except FrameFormatError TestCase :=
  parseTestcase u testcase abi scanPeriodNs none

def minimize (testcase : Text) (maxRounds : ℕ) : Shortening Minimized := do
  match parse u abi testcase with
  | .error error => throw (.format error)
  | .ok parsed =>
    let (frames, removed) ← deleteRounds u abi world index signature parsed maxRounds parsed.frames 0
    let (frames, simplified) ←
      simplifyValues u abi world index signature parsed frames 0 (fieldPlaces parsed frames)
    match encode u abi parsed frames with
    | .error error => throw (.format error)
    | .ok data =>
      let observation ← boundedProbe world data
      match classify observation index with
      | some info =>
        if info.minimizeSignature = signature then
          return {
            testcase := data
            frames := frames.length
            depth := info.cycle.map (· + 1)
            removed
            simplified }
        else
          return { testcase, frames := parsed.frames.length, depth := none, removed := 0, simplified := 0 }
      | none =>
        return { testcase, frames := parsed.frames.length, depth := none, removed := 0, simplified := 0 }

end SemantiST.Campaign
