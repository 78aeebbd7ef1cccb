import SemantiST.Intake.SourceMap
import SemantiST.Intake.Structure
import SemantiST.Lib.Sort

/-!
# The normalization loop

`normalize` (`normalize/engine.py`).  Each round compiles the texts, offers the located errors to the
rules in order and applies the edits of proposals that do not overlap.  What the compiler answers and
what the rules propose are given from outside; the rules are those whose keys are offsets.
-/

namespace SemantiST.Intake

open Lib

/-! ## Answers of the compiler -/

structure Diagnostic where
  isError : Bool
  code : Text
  /-- The file of the project that the path names. -/
  file : Option Text
  line : ℕ
  column : ℕ

structure CompileResult where
  returncode : ℤ
  diagnostics : List Diagnostic
  panic : Bool

namespace CompileResult

def errors (result : CompileResult) : List Diagnostic := result.diagnostics.filter Diagnostic.isError

def ok (result : CompileResult) : Bool := result.returncode = 0 && !result.panic && result.errors.isEmpty

/-- `_unparsed_failure`: a failure without a diagnostic. -/
def unparsedFailure (result : CompileResult) : Bool :=
  result.returncode ≠ 0 && result.errors.isEmpty && !result.panic

end CompileResult

structure Located where
  diagnostic : Diagnostic
  offset : ℕ
  token : Option LosslessToken
  unit : Option Unit

/-- What the compiler answers in a round: to the check, to code generation, and to the search for a
unit that makes it panic. -/
structure Answer where
  check : CompileResult
  generated : CompileResult
  irWritten : Bool
  panics : ℕ → Bool

def locate (diagnostic : Diagnostic) (index : SourceIndex) : Located :=
  if diagnostic.line = 0 then { diagnostic, offset := 0, token := none, unit := none }
  else
    let offset := index.offset diagnostic.line diagnostic.column
    { diagnostic, offset, token := index.tokenAt offset, unit := index.unitAt offset }

/-! ## Rules -/

/-- An edit in a file; with `moveTo` the span is moved to that offset. -/
structure FileEdit where
  file : Text
  start : ℕ
  stop : ℕ
  replacement : Text := []
  moveTo : Option ℕ := none
deriving DecidableEq

/-- A key that records an offset, as `(id, file, offset)` or `(id, file, offset, tag)`. -/
structure OffsetKey where
  rule : Text
  file : Text
  offset : ℕ
  tag : Text := []
deriving DecidableEq

structure Proposal where
  rule : Text
  key : OffsetKey
  edits : List FileEdit
deriving DecidableEq

structure RuleContext where
  index : Text → SourceIndex
  knownNames : List Text

/-- A rule: the codes it takes, and what it proposes; a fresh name becomes a known one. -/
structure Rule where
  codes : List Text
  propose : RuleContext → Text → Located → Option Proposal × List Text

/-- The first proposal of a rule that takes the code. -/
def offer (index : Text → SourceIndex) (file : Text) (item : Located) :
    List Rule → List Text → Option Proposal × List Text
  | [], known => (none, known)
  | rule :: rules, known =>
    if item.diagnostic.code ∈ rule.codes then
      match rule.propose ⟨index, known⟩ file item with
      | (some proposal, known) => (some proposal, known)
      | (none, known) => offer index file item rules known
    else offer index file item rules known

/-- The proposals of a round: those to be made, and those whose key is an applied one. -/
structure Offers where
  known : List Text
  proposals : List Proposal := []
  skipped : List Proposal := []

def Offers.add (applied : List OffsetKey) (offers : Offers) (proposal : Proposal) : Offers :=
  if proposal.key ∈ applied then { offers with skipped := offers.skipped ++ [proposal] }
  else if proposal.key ∈ offers.proposals.map Proposal.key then offers
  else { offers with proposals := offers.proposals ++ [proposal] }

def collect (rules : List Rule) (index : Text → SourceIndex) (applied : List OffsetKey) (known : List Text)
    (located : List (Text × Located)) : Offers :=
  located.foldl (fun offers item =>
    let (proposal, known) := offer index item.1 item.2 rules offers.known
    let offers := { offers with known := known }
    match proposal with
    | some proposal => offers.add applied proposal
    | none => offers) { known := known }

/-! ## Overlaps -/

/-- `_move_range`: the text whose coordinates a move changes. -/
def moveRange (edit : FileEdit) (destination : ℕ) : ℕ × ℕ := (min edit.start destination, max edit.stop destination)

/-- What the accepted proposals replace and move, by file. -/
structure Taken where
  taken : List (Text × ℕ × ℕ) := []
  moving : List (Text × ℕ × ℕ) := []
  accepted : List Proposal := []

def clashes (taken : List (Text × ℕ × ℕ)) (edit : FileEdit) : Bool :=
  taken.any fun span => span.1 = edit.file &&
    (!(edit.stop ≤ span.2.1 || span.2.2 ≤ edit.start) || (edit.start = edit.stop && edit.stop = span.2.1))

/-- A proposal is dropped where it overlaps an earlier one; a file gets replacements or moves. -/
def Taken.add (taken : Taken) (proposal : Proposal) : Option Taken :=
  if proposal.edits.any fun edit => edit.moveTo.isSome then
    match proposal.edits with
    | [edit] =>
      let range := moveRange edit (edit.moveTo.getD 0)
      if taken.taken.any (fun span => span.1 = edit.file) || taken.moving.any (fun span =>
          span.1 = edit.file && !(range.2 < span.2.1 || span.2.2 < range.1)) then some taken
      else some { taken with
        moving := taken.moving ++ [(edit.file, range)]
        accepted := taken.accepted ++ [proposal] }
    | _ => none
  else if proposal.edits.any fun edit => taken.moving.any fun span => span.1 = edit.file then some taken
  else if proposal.edits.any (clashes taken.taken) then some taken
  else some { taken with
    taken := taken.taken ++ proposal.edits.map fun edit => (edit.file, edit.start, edit.stop)
    accepted := taken.accepted ++ [proposal] }

/-- `_non_overlapping`; a move beside other edits of a proposal is an error. -/
def nonOverlapping (proposals : List Proposal) : Option (List Proposal) :=
  (proposals.foldlM Taken.add {}).map Taken.accepted

/-! ## Application -/

/-- The order from the end of a file backwards. -/
def backwards (first second : (ℕ × ℕ) × Edit) : Ordering :=
  (compare second.1.1 first.1.1).then (compare second.1.2 first.1.2)

/-- The edits that the accepted proposals make in a file, as they are applied. -/
def editsOf (accepted : List Proposal) (file : Text) : List Edit :=
  let owned := accepted.flatMap fun proposal =>
    (proposal.edits.filter fun edit => edit.file = file).map fun edit => (edit, proposal.rule)
  let moves := owned.filterMap fun edit =>
    edit.1.moveTo.map fun destination =>
      (moveRange edit.1 destination, Edit.move edit.1.start edit.1.stop destination edit.2)
  let replacements := owned.map fun edit =>
    ((edit.1.start, edit.1.stop), Edit.replace edit.1.start edit.1.stop edit.1.replacement edit.2)
  (sortBy backwards (if moves.isEmpty then replacements else moves)).map Prod.snd

def applyAll (source : EditableSource) (edits : List Edit) : Except EditError EditableSource :=
  edits.foldlM EditableSource.apply source

/-! ## Rounds -/

structure Project where
  /-- The names of the files, in order. -/
  files : List Text
  rules : List Rule
  index : Text → SourceIndex

structure Normalizing where
  sources : Text → EditableSource
  applied : List OffsetKey := []
  known : List Text
  masked : List (Text × ℕ) := []
  panicSearchStart : ℕ := 0

/-- The located errors of a round, and whether there are others. -/
def locateAll (project : Project) (index : Text → SourceIndex) (needLine : Bool) (diagnostics : List Diagnostic) :
    List (Text × Located) × Bool :=
  let located := diagnostics.filterMap fun diagnostic =>
    match diagnostic.file with
    | some file =>
      if file ∈ project.files ∧ (needLine = true → diagnostic.line ≠ 0) then some (file, locate diagnostic (index file))
      else none
    | none => none
  (located, located.length ≠ diagnostics.length)

/-- By file, offset and code. -/
def byPosition (first second : Text × Located) : Ordering :=
  (compareOfLessAndEq first.1 second.1).then <| (compare first.2.offset second.2.offset).then <|
    compareOfLessAndEq first.2.diagnostic.code second.2.diagnostic.code

/-- The errors that a round acts on: those of the check, or of code generation where there are none. -/
structure Errors where
  located : List (Text × Located)
  configuration : Bool
  codegen : Bool
  panic : Bool

def errorsOf (project : Project) (index : Text → SourceIndex) (answer : Answer) : Errors :=
  let (located, others) := locateAll project index false answer.check.errors
  let configuration := others || answer.check.unparsedFailure
  if located.isEmpty && !configuration && !answer.check.panic then
    let (located, others) := locateAll project index true answer.generated.errors
    { located := sortBy byPosition located
      configuration := others || answer.generated.unparsedFailure || (answer.generated.ok && !answer.irWritten)
      codegen := true
      panic := answer.generated.panic }
  else { located := sortBy byPosition located, configuration, codegen := false, panic := answer.check.panic }

/-- The place where the compiler starts to panic. -/
def searchPanic (panics : ℕ → Bool) : ℕ → ℕ → ℕ → ℕ
  | 0, _, high => high
  | fuel + 1, low, high =>
    if low + 1 < high then
      let middle := (low + high) / 2
      if panics middle then searchPanic panics fuel low middle else searchPanic panics fuel middle high
    else high

/-- `_panic_culprit`: the first unit whose presence makes the check panic. -/
def panicCulprit (panics : ℕ → Bool) (units start : ℕ) : Option ℕ :=
  if units = 0 ∨ panics units = false then none else some (searchPanic panics units start units - 1)

/-- The units that are not masked. -/
def activeUnits (project : Project) (index : Text → SourceIndex) (s : Normalizing) : List (Text × Unit) :=
  project.files.flatMap fun file =>
    ((index file).units.filter fun unit => (file, (s.sources file).toOriginal unit.start) ∉ s.masked).map (file, ·)

/-- A round without a proposal masks the units with errors, or ends the loop. -/
def maskUnits (project : Project) (index : Text → SourceIndex) (errors : Errors) (answer : Answer)
    (s : Normalizing) : Option Normalizing :=
  if errors.codegen || errors.configuration then none
  else if errors.panic then do
    let active := activeUnits project index s
    let culprit ← panicCulprit answer.panics active.length s.panicSearchStart
    let (file, unit) ← active[culprit]?
    return { s with
      masked := s.masked ++ [(file, (s.sources file).toOriginal unit.start)]
      panicSearchStart := culprit }
  else
    let masks := (errors.located.filterMap fun item =>
      item.2.unit.map fun unit => (item.1, (s.sources item.1).toOriginal unit.start)).filter (· ∉ s.masked)
    if masks.isEmpty then none else some { s with masked := s.masked ++ masks, panicSearchStart := 0 }

/-- A round: what is skipped for an applied key, what is accepted, and the state for the next one. -/
structure Round where
  skipped : List Proposal := []
  accepted : List Proposal := []
  next : Option Normalizing := none

/-- The accepted proposals are applied, unless an edit is out of place. -/
def applyRound (project : Project) (s : Normalizing) (accepted : List Proposal) (known : List Text) :
    Option Normalizing :=
  if (accepted.all fun proposal => proposal.edits.all fun edit => project.files.contains edit.file) &&
      project.files.all fun file => (applyAll (s.sources file) (editsOf accepted file)).toOption.isSome then
    some { s with
      sources := fun file => ((applyAll (s.sources file) (editsOf accepted file)).toOption).getD (s.sources file)
      applied := s.applied ++ accepted.map Proposal.key
      known := known
      panicSearchStart := 0 }
  else none

def round (project : Project) (s : Normalizing) (answer : Answer) : Round :=
  let index := fun file => project.index (s.sources file).text
  let errors := errorsOf project index answer
  if errors.located.isEmpty && !errors.configuration && !errors.panic then {}
  else
    let offers := collect project.rules index s.applied s.known errors.located
    if offers.proposals.isEmpty then
      { skipped := offers.skipped
        next := maskUnits project index errors answer { s with known := offers.known } }
    else
      match nonOverlapping offers.proposals with
      | none => { skipped := offers.skipped }
      | some accepted =>
        { skipped := offers.skipped
          accepted := accepted
          next := applyRound project s accepted offers.known }

/-- The rounds of a run, each with the state that it starts from. -/
def rounds (project : Project) : Normalizing → List Answer → List (Normalizing × Round)
  | _, [] => []
  | s, answer :: answers =>
    let r := round project s answer
    (s, r) ::
      match r.next with
      | some s' => rounds project s' answers
      | none => []

/-! ## Runs -/

/-- `MAX_ROUNDS`. -/
def maxRounds : ℕ := 400

/-- `rebind_edits`: every call of a name that is bound to another. -/
def rebindEdits (rebind : List (Text × Text)) : List LosslessToken → List (ℕ × ℕ × Text)
  | token :: following :: rest =>
    let edits := rebindEdits rebind (following :: rest)
    match rebind.find? fun entry => entry.1 = token.upper with
    | some entry => if token.isWord && following.Is "(" then (token.start, token.stop, entry.2) :: edits else edits
    | none => edits
  | _ => []

/-- A text with its conversions bound anew, from the end backwards. -/
def rebound (rebind : List (Text × Text)) (index : Text → SourceIndex) (text : Text) : EditableSource :=
  (rebindEdits rebind (index text).significant).reverse.foldl (fun source edit =>
    ((source.replace edit.1 edit.2.1 edit.2.2 "representation-conversion-rebind".toList).toOption).getD source)
    (.ofText text)

/-- `normalize`: the rounds of a project with given texts, for the answers of the compiler. -/
def normalize (project : Project) (texts : Text → Text) (rebind : List (Text × Text)) (known : List Text)
    (answers : List Answer) : List (Normalizing × Round) :=
  rounds project { sources := fun file => rebound rebind project.index (texts file), known := known }
    (answers.take maxRounds)

end SemantiST.Intake
