import SemantiST.Intake.Normalize

/-!
# Build evidence

`validate` (`build.py`): the texts of a library are compiled round by round; units with errors are
recorded and blanked, until the rest compiles to IR.  The answers of the compiler are given from outside.
-/

namespace SemantiST.Intake.Build

open Lib

/-! ## Blanked texts -/

def isLineBreak (c : Char) : Bool := c = '\r' || c = '\n'

/-- `blank` -/
def blank (text : Text) (spans : List (ℕ × ℕ)) : Text :=
  spans.foldl (fun chars span =>
    chars.mapIdx fun i c => if span.1 ≤ i ∧ i < span.2 ∧ !isLineBreak c then ' ' else c) text

/-! ## Declarations of a global variable list -/

def globalModifiers : List String := ["CONSTANT", "RETAIN", "PERSISTENT", "NON_RETAIN"]

/-- From a token back to the semicolon before it or to the keyword of the list, and on behind modifiers. -/
def declarationStart (tokens : List LosslessToken) (first k : ℕ) : ℕ :=
  let start := k - (((tokens.take k).drop (first + 1)).reverse.takeWhile fun token => !token.Is ";").length
  start + (((tokens.take k).drop start).takeWhile fun token =>
    Among token.upper ("VAR_GLOBAL" :: globalModifiers)).length

/-- The semicolon from a token on, or the end of the list. -/
def declarationStop (tokens : List LosslessToken) (last k : ℕ) : ℕ :=
  k + (((tokens.take last).drop k).takeWhile fun token => !token.Is ";").length

/-- `_declaration_span`: the declaration of a global variable list that contains an offset. -/
def declarationSpan (index : SourceIndex) (unit : Unit) (offset : ℕ) : Option (ℕ × ℕ) :=
  if unit.kind ≠ "VAR_GLOBAL".toList then none
  else
    let tokens := index.significant
    let first := index.significantIndex unit.start
    let last := index.significantIndex unit.stop
    let k := min (index.significantIndex offset) (last - 1)
    let start := declarationStart tokens first k
    let stop := declarationStop tokens last k
    if last ≤ stop || ((tokens.take stop).drop start).any fun token =>
        Among token.upper ["STRUCT", "END_VAR", "VAR_GLOBAL"] then none
    else do return ((← tokens[start]?).start, (← tokens[stop]?).stop)

/-! ## Projects and answers -/

/-- What patterns read in the compiler's output and in the text of a global variable list. -/
structure Patterns where
  listedNames : Text → List Text
  declaredGlobals : Text → List Text
  unknownType : Text → Option Text
  dumpedNames : Text → List Text
  insertedNames : Text → List Text
  codegenKey : Text → Text

/-- The texts of a library, by the names of their files in order. -/
structure Library where
  unicode : UnicodeData
  patterns : Patterns
  files : List Text
  text : Text → Text

/-- A unit with its file. -/
abbrev UnitRef := Text × Unit

/-- `by_start`: a unit is found by its file and its start. -/
def keyOf (ref : UnitRef) : Text × ℕ := (ref.1, ref.2.start)

def spanOf (unit : Unit) : ℕ × ℕ := (unit.start, unit.stop)

/-- The significant tokens of a unit. -/
def unitTokens (index : SourceIndex) (unit : Unit) : List LosslessToken :=
  (index.significant.take (index.significantIndex unit.stop)).drop (index.significantIndex unit.start)

namespace Library

variable (library : Library)

def index (file : Text) : SourceIndex := .ofText library.unicode (library.text file)

def unitRefs : List UnitRef := library.files.flatMap fun file => (library.index file).units.map fun unit => (file, unit)

def upper (name : Text) : Text := library.unicode.upperText name

def tokensOf (ref : UnitRef) : List LosslessToken := unitTokens (library.index ref.1) ref.2

/-- `_unit_names`; without the text, the variables of a list are left out. -/
def unitNames (ref : UnitRef) (withText : Bool) : List Text :=
  let unit := ref.2
  let own := [library.upper unit.name, library.upper unit.qualifiedName].filter (· ≠ [])
  let listed :=
    if unit.kind = "VAR_GLOBAL".toList ∧ withText = true then
      (library.patterns.listedNames (slice unit.start unit.stop (library.text ref.1))).map library.upper
    else []
  let action :=
    if unit.kind = "ACTION".toList then [library.upper (unit.name.reverse.takeWhile (· ≠ '.')).reverse] else []
  own ++ listed ++ action

/-- `_mentioned`: which of some names a unit mentions, its own left out. -/
def mentioned (ref : UnitRef) (names : List Text) : List Text :=
  ((library.tokensOf ref).filter fun token =>
    token.isWord && token.upper ∈ names && token.upper ∉ library.unitNames ref false).map LosslessToken.upper

/-- The words of a unit name one of some names. -/
def mentionsAny (ref : UnitRef) (names : List Text) : Bool :=
  (library.tokensOf ref).any fun token => token.isWord && token.upper ∈ names

end Library

inductive UnitStatus where
  | ok | typeError | dependsOnUnsupported | compilerPanic | codegenPanic | codegenError | unsupportedConstruct
deriving DecidableEq

/-- The answers to a candidate that is left out: to the checks that follow, and whether the error remains. -/
structure ExclusionAnswer where
  checks : ℕ → CompileResult := fun _ => { returncode := 0, diagnostics := [], panic := false }
  keyRemains : Bool := true

/-- The answers of the compiler in a round; the searches ask about the units up to a place. -/
structure BuildAnswer where
  check : CompileResult
  /-- The name that an error of the check refers to. -/
  referenced : ℕ → Option Text := fun _ => none
  unlocatedFails : ℕ → Bool := fun _ => false
  generated : CompileResult
  output : Text := []
  irWritten : Bool := false
  exclusion : ℕ → ExclusionAnswer := fun _ => {}
  messageFails : ℕ → Bool := fun _ => false
  panicFails : ℕ → Bool := fun _ => false

/-! ## A round -/

structure State where
  status : Text × ℕ → UnitStatus := fun _ => .ok
  spans : Text → List (ℕ × ℕ) := fun _ => []
  blankedNames : List Text := []
  configurationErrors : Bool := false
  orphanLines : List (Text × ℕ × ℕ) := []
  partialRounds : Text × ℕ → ℕ := fun _ => 0
  panicStart : ℕ := 0

/-- What a round finds. -/
structure Findings where
  status : Text × ℕ → UnitStatus
  failing : List UnitRef := []
  orphans : List (Text × ℕ × ℕ) := []
  declared : List ((Text × ℕ) × (ℕ × ℕ)) := []
  unlocated : Bool := false
  configurationErrors : Bool

/-- A unit fails, under a status. -/
def Findings.reject (found : Findings) (ref : UnitRef) (status : UnitStatus) : Findings :=
  { found with
    status := Function.update found.status (keyOf ref) status
    failing := found.failing ++ [ref] }

/-- The status of a unit, or another one if it is `ok`. -/
def Findings.statusOr (found : Findings) (ref : UnitRef) (status : UnitStatus) : UnitStatus :=
  if found.status (keyOf ref) = .ok then status else found.status (keyOf ref)

/-- The place where a line starts, of which so many come before. -/
def lineStartAt : ℕ → ℕ → Text → Option ℕ
  | 0, position, _ => some position
  | lines + 1, position, text =>
    match text.dropWhile (· ≠ '\n') with
    | [] => none
    | _ :: rest => lineStartAt lines (position + (text.length - rest.length)) rest

/-- The line of a diagnostic, without its end. -/
def lineSpan (text : Text) (line : ℕ) : Option (ℕ × ℕ) :=
  (lineStartAt (line - 1) 0 text).map fun start => (start, start + ((text.drop start).takeWhile (· ≠ '\n')).length)

section Round

variable (library : Library)

/-- The unit and the place of a diagnostic in the files of the library. -/
def located (diagnostic : Diagnostic) : Option (Text × Located) :=
  (diagnostic.file.filter (· ∈ library.files)).map fun file => (file, locate diagnostic (library.index file))

/-- An error of the check, with the name that it refers to. -/
def addDiagnostic (s : State) (found : Findings) (diagnostic : Diagnostic) (referenced : Option Text) :
    Option Findings :=
  match located library diagnostic with
  | none => some { found with unlocated := true }
  | some (file, located) =>
    match located.unit with
    | none => do
      -- text outside any unit is left out line by line
      let span ← lineSpan (library.text file) diagnostic.line
      return if span ∈ s.spans file then found else { found with orphans := found.orphans ++ [(file, span)] }
    | some unit =>
      let ref := (file, unit)
      let dependent := referenced.any fun name => name ≠ [] && library.upper name ∈ s.blankedNames
      let status := if dependent then .dependsOnUnsupported else .typeError
      let found := found.reject ref (found.statusOr ref status)
      some { found with
        declared := found.declared ++
          (declarationSpan (library.index file) unit located.offset).toList.map fun span => (keyOf ref, span) }

/-- The units that still build. -/
def activeUnits (status : Text × ℕ → UnitStatus) : List UnitRef :=
  library.unitRefs.filter fun ref => status (keyOf ref) = .ok

/-- `_culprit_prefix`: the first unit from a place on whose presence makes the compilation fail. -/
def culpritPrefix (fails : ℕ → Bool) (units start : ℕ) : Option ℕ :=
  if units ≤ start ∨ fails units = false then none else some (searchPanic fails units start units - 1)

/-- The diagnostics of the check; errors without a place are traced to a unit. -/
def checkStage (s : State) (answer : BuildAnswer) : Option Findings := do
  let found ← answer.check.errors.zipIdx.foldlM
    (fun found (diagnostic, i) => addDiagnostic library s found diagnostic (answer.referenced i))
    { status := s.status, configurationErrors := s.configurationErrors }
  let found := if answer.check.unparsedFailure then { found with configurationErrors := true } else found
  if found.unlocated && found.failing.isEmpty && found.orphans.isEmpty && !answer.check.panic then
    let active := activeUnits library found.status
    match (culpritPrefix answer.unlocatedFails active.length 0).bind (active[·]?) with
    | some ref => return found.reject ref .typeError
    | none => return { found with configurationErrors := true }
  else return found

/-- The units that still build and mention a name. -/
def usersOf (found : Findings) (name : Text) : List UnitRef :=
  (activeUnits library found.status).filter fun ref => library.mentionsAny ref [library.upper name]

/-- The units of the errors that follow a candidate, with what is left out of each. -/
def cascade (removed : List (Text × ℕ × ℕ)) (result : CompileResult) : List (UnitRef × (ℕ × ℕ)) :=
  result.errors.filterMap fun diagnostic => do
    let (file, located) ← located library diagnostic
    let unit ← located.unit
    let span := (declarationSpan (library.index file) unit located.offset).getD (spanOf unit)
    if (file, span) ∈ removed ∨ (file, spanOf unit) ∈ removed then none else some ((file, unit), span)

/-- They are left out too; units that go as a whole depend on the candidate. -/
def removeCascade (state : List (Text × ℕ × ℕ) × List UnitRef) (failed : UnitRef × (ℕ × ℕ)) :
    List (Text × ℕ × ℕ) × List UnitRef :=
  let (ref, span) := failed
  if (ref.1, span) ∈ state.1 ∨ (ref.1, spanOf ref.2) ∈ state.1 then state
  else (state.1 ++ [(ref.1, span)], if span = spanOf ref.2 then state.2 ++ [ref] else state.2)

/-- The units that fail to type check once others are left out, if the check then passes. -/
def dependentsOf (checks : ℕ → CompileResult) : ℕ → ℕ → List (Text × ℕ × ℕ) × List UnitRef → Option (List UnitRef)
  | 0, _, _ => none
  | fuel + 1, r, state =>
    let checked := checks r
    let failed := cascade library state.1 checked
    if checked.panic || checked.errors.isEmpty || failed.isEmpty then
      if checked.panic || !checked.errors.isEmpty then none else some state.2
    else dependentsOf checks fuel (r + 1) (failed.foldl removeCascade state)

/-- All that is blanked, with the files. -/
def removedSpans (s : State) : List (Text × ℕ × ℕ) :=
  library.files.flatMap fun file => (s.spans file).map fun span => (file, span)

/-- `_exclusion_culprit`: the unit that an error of code generation comes from, and those that need it. -/
def exclusionCulprit (s : State) (found : Findings) (answer : BuildAnswer) : Option (UnitRef × List UnitRef) :=
  let names := (library.patterns.insertedNames answer.output ++ library.patterns.dumpedNames answer.output).map
    library.upper
  let candidates := (activeUnits library found.status).filter fun ref => library.mentionsAny ref names
  (candidates.take 24).zipIdx.findSome? fun (ref, i) => do
    let dependents ← dependentsOf library (answer.exclusion i).checks 8 0
      (removedSpans library s ++ [(ref.1, spanOf ref.2)], [])
    if (answer.exclusion i).keyRemains then none else some (ref, dependents)

/-- Three letters in a row. -/
def hasWord : Text → Bool
  | a :: b :: c :: rest => (a.isAlpha && b.isAlpha && c.isAlpha) || hasWord (b :: c :: rest)
  | _ => false

/-- The units whose excluded type or variable code generation misses. -/
def missingUsers (s : State) (found : Findings) (output : Text) : List UnitRef :=
  let isBlanked := fun name : Text => decide (library.upper name ∈ s.blankedNames)
  match library.patterns.unknownType output with
  | some name => if isBlanked name then usersOf library found name else []
  | none => (((library.patterns.dumpedNames output).find? isBlanked).map (usersOf library found)).getD []

/-- An error of code generation without a place: a culprit, with the units that need it. -/
def codegenCulprit (s : State) (found : Findings) (answer : BuildAnswer) : Option (UnitRef × List UnitRef) :=
  if hasWord (library.patterns.codegenKey answer.output) then
    match exclusionCulprit library s found answer with
    | some culprit => some culprit
    | none =>
      let active := activeUnits library found.status
      ((culpritPrefix answer.messageFails active.length 0).bind (active[·]?)).map fun ref => (ref, [])
  else none

/-- Errors of code generation; says whether the unit of one was found. -/
def codegenStage (s : State) (found : Findings) (answer : BuildAnswer) : Findings × Bool :=
  if answer.generated.errors ≠ [] then
    answer.generated.errors.foldl (fun (found, locatedAny) diagnostic =>
      match (located library diagnostic).bind fun place => place.2.unit.map fun unit => (place.1, unit) with
      | some ref => (found.reject ref .codegenError, true)
      | none => ({ found with configurationErrors := true }, locatedAny)) (found, false)
  else
    match missingUsers library s found answer.output with
    | [] =>
      match codegenCulprit library s found answer with
      | none => ({ found with configurationErrors := true }, false)
      | some (ref, dependents) =>
        (dependents.foldl (fun found dependent =>
          found.reject dependent (found.statusOr dependent .dependsOnUnsupported)) (found.reject ref .codegenError),
          true)
    | users => (users.foldl (fun found ref => found.reject ref .dependsOnUnsupported) found, true)

/-- The unit that makes the compiler panic, from the place on where the last search ended. -/
def panicStage (s : State) (found : Findings) (answer : BuildAnswer) (status : UnitStatus) : Option (Findings × ℕ) := do
  let active := activeUnits library found.status
  let culprit ← culpritPrefix answer.panicFails active.length s.panicStart
  let ref ← active[culprit]?
  let blocked := library.mentioned ref s.blankedNames
  return (found.reject ref (if blocked = [] then status else .dependsOnUnsupported), culprit)

def partialLimit : ℕ := 20

/-- What is blanked for a failing unit: a global variable list first loses declarations only. -/
def blankUnit (declared : List ((Text × ℕ) × (ℕ × ℕ))) (s : State) (ref : UnitRef) : State :=
  let key := keyOf ref
  let spans := s.spans ref.1
  let declarations := ((declared.filter fun entry => entry.1 = key).map Prod.snd).eraseDups.filter (· ∉ spans)
  let declarations := sortBy (fun a b => (compare a.1 b.1).then (compare a.2 b.2)) declarations
  if declarations ≠ [] ∧ s.partialRounds key < partialLimit then
    { s with
      spans := Function.update s.spans ref.1 (spans ++ declarations)
      blankedNames := s.blankedNames ++ declarations.flatMap fun span =>
        library.patterns.declaredGlobals (slice span.1 span.2 (library.text ref.1))
      partialRounds := Function.update s.partialRounds key (s.partialRounds key + 1) }
  else
    { s with
      spans := Function.update s.spans ref.1 (spans ++ [spanOf ref.2])
      blankedNames := s.blankedNames ++ library.unitNames ref true }

/-- How a round ends: with IR, without a way on, or with the next round. -/
inductive Outcome where
  | accepted (s : State)
  | stopped
  | again (s : State)

/-- The end of a round: what failed is blanked. -/
def finish (s : State) (found : Findings) (panicStart : ℕ) : Outcome :=
  if found.configurationErrors && found.failing.isEmpty && found.orphans.isEmpty then .stopped
  else
    let spans := fun file => s.spans file ++ (found.orphans.filter fun orphan => orphan.1 = file).map Prod.snd
    let new := found.failing.filter fun ref => spanOf ref.2 ∉ spans ref.1
    if new.isEmpty && found.orphans.isEmpty then .stopped
    else
      .again (new.eraseDups.foldl (blankUnit library found.declared) { s with
        status := found.status
        spans := spans
        configurationErrors := found.configurationErrors
        orphanLines := s.orphanLines ++ found.orphans
        panicStart := panicStart })

/-- The end of a round in which the compiler panicked. -/
def finishPanic (s : State) (found : Findings) (answer : BuildAnswer) (status : UnitStatus) : Outcome :=
  match panicStage library s found answer status with
  | some (found, panicStart) => finish library s found panicStart
  | none => .stopped

def round (s : State) (answer : BuildAnswer) : Outcome :=
  match checkStage library s answer with
  | none => .stopped
  | some found =>
    if answer.check.panic then finishPanic library s found answer .compilerPanic
    else if answer.check.errors.isEmpty && !found.configurationErrors then
      if answer.generated.panic then finishPanic library s found answer .codegenPanic
      else if answer.generated.ok then
        if answer.irWritten then .accepted { s with status := found.status } else .stopped
      else
        let (found, locatedAny) := codegenStage library s found answer
        if locatedAny then finish library s found 0 else .stopped
    else finish library s found 0

end Round

/-! ## Runs -/

section Run

variable (library : Library)

/-- The rounds of a run, each with the state that it starts from. -/
def rounds : State → List BuildAnswer → List (State × BuildAnswer)
  | _, [] => []
  | s, answer :: answers =>
    (s, answer) ::
      match round library s answer with
      | .again s' => rounds s' answers
      | _ => []

/-- The state in which IR is accepted. -/
def acceptedState : State → List BuildAnswer → Option State
  | _, [] => none
  | s, answer :: answers =>
    match round library s answer with
    | .accepted s' => some s'
    | .stopped => none
    | .again s' => acceptedState s' answers

def excludeUnit (excluded : Text × Text → Bool) (s : State) (ref : UnitRef) : State :=
  if excluded (ref.1, ref.2.qualifiedName) then
    { s with
      status := Function.update s.status (keyOf ref) .unsupportedConstruct
      spans := Function.update s.spans ref.1 (s.spans ref.1 ++ [spanOf ref.2])
      blankedNames := s.blankedNames ++ library.unitNames ref true }
  else s

/-- The units that are unsupported before compiling are blanked from the start. -/
def exclude (excluded : Text × Text → Bool) : State := library.unitRefs.foldl (excludeUnit library excluded) {}

def maxRounds : ℕ := 60

/-- The answers that the loop reads at most. -/
def readAnswers (answers : List BuildAnswer) : List BuildAnswer :=
  answers.take (maxRounds + library.unitRefs.length)

/-- What an accepted build says: the statuses of units and the texts as built. -/
structure Evidence where
  status : Text × ℕ → UnitStatus
  acceptedTexts : Text → Text

/-- `validate` -/
def validate (excluded : Text × Text → Bool) (answers : List BuildAnswer) : Option Evidence :=
  (acceptedState library (exclude library excluded) (readAnswers library answers)).map fun s => {
    status := s.status
    acceptedTexts := fun file => blank (library.text file) (s.spans file) }

end Run

end SemantiST.Intake.Build
