import Mathlib.Data.Char
import Mathlib.Data.List.Lex
import SemantiST.Abi
import SemantiST.Campaign.Probe
import SemantiST.Lib.Sort
import SemantiST.Symbolic.CallClosure

/-!
# Model classes and query results

The classes of the library models that the manifest of a target lists (`compiler/symbolic/build.py`), and
`run_query` (`compiler/symbolic/solver.py`), which takes a search that ends without a goal for a proof
only where no model is imprecise.
-/

namespace SemantiST.Symbolic

open Lib Campaign

/-! ## The manifest -/

def faithful : List Text :=
  ["TON", "TOF", "TP", "R_TRIG", "F_TRIG", "TIME", "DWORD_TO_REAL", "REAL_TO_DWORD", "ROL__DWORD", "LEN__STRING",
    "CONCAT__STRING", "INSERT_EXT__STRING", "LINT_TO_STRING_EXT"].map String.toList

def havoc : List Text :=
  ["ACOS__REAL", "ASIN__REAL", "ATAN__REAL", "COS__REAL", "SIN__REAL", "SIN__LREAL", "TAN__REAL", "LN__REAL",
    "SQRT__REAL"].map String.toList

def approximating : List Text := ["EXP__REAL", "ROUND__REAL"].map String.toList

/-- The fields whose texts the harness reads by `strtod`. -/
def floatFields (abi : TargetAbi) : List Param :=
  (abi.frameParams ++ abi.sharedParams).filter fun p =>
    match p.spec with
    | .scalar type => type.isReal
    | _ => false

def concretizing (abi : TargetAbi) : List Text := if floatFields abi = [] then [] else ["strtod".toList]

structure ModelClasses where
  faithful : List Text := []
  concretizing : List Text := []
  havoc : List Text := []
  approximating : List Text := []

/-- What `build` writes of a supported target, as far as queries read it. -/
structure Manifest where
  modelClasses : ModelClasses
  imprecise : List Text

def manifestOf (lines : List Text) (target : Text) (abi : TargetAbi) : Manifest :=
  let symbols := symbolsOf lines target
  { modelClasses := {
      faithful := sortDedup (faithful.filter (· ∈ symbols))
      concretizing := sortDedup (concretizing abi)
      havoc := sortDedup (havoc.filter (· ∈ symbols))
      approximating := sortDedup (approximating.filter (· ∈ symbols)) }
    imprecise := sortDedup ((havoc ++ approximating).filter (· ∈ symbols) ++ concretizing abi) }

/-! ## The scope of a query -/

/-- `contains_float` -/
def containsFloat : TypeSpec → Bool
  | .scalar type => type.isReal
  | .array element _ | .pointer element => containsFloat element
  | .string _ _ | .aggregate _ _ => false

/-- A field that the driver can make symbolic. -/
def canBeSymbolic : TypeSpec → Bool
  | .scalar _ | .string _ _ | .pointer _ => true
  | .array element count => count ≤ 32 && (TypeSpec.array element count).byteSize ≤ 4096
  | .aggregate _ _ => false

/-- `symbolic_scope`: the fields that are made symbolic, and those that are not. -/
def symbolicScope (abi : TargetAbi) (requested : Option (List Text)) : List Text × List Text :=
  let entries := abi.frameActionParams
  (requested.getD (entries.map Param.name)).partition fun name =>
    (entries.reverse.find? fun p => p.name = name).any fun p => canBeSymbolic p.spec

/-- The symbolic fields that hold a float. -/
def floatSymbolic (abi : TargetAbi) (symbolic : List Text) : List Text :=
  symbolic.filter fun name =>
    (abi.frameParams ++ abi.sharedParams).any fun p => p.name = name && containsFloat p.spec

/-- More names, where there are any. -/
def withNames (imprecise names : List Text) : List Text :=
  if names = [] then imprecise else sortDedup (imprecise ++ names)

def Manifest.imprecision (manifest : Manifest) : List Text :=
  let classes := manifest.modelClasses
  sortDedup (manifest.imprecise ++
    (classes.concretizing ++ classes.havoc ++ classes.approximating).filter (· ≠ []))

/-- What is imprecise before the search. -/
def scopeImprecise (abi : TargetAbi) (manifest : Manifest) (requested : Option (List Text)) : List Text :=
  let (symbolic, concretized) := symbolicScope abi requested
  let imprecise := withNames manifest.imprecision (concretized.map ("concretized:".toList ++ ·))
  withNames imprecise ((floatSymbolic abi symbolic).map ("float_symbolic:".toList ++ ·))

/-- The name that `imprecise: ([A-Za-z0-9_]+)` reads at the start of a text. -/
def warnedAt (s : Text) : Option Text :=
  let mark := "imprecise: ".toList
  let name := (s.drop mark.length).takeWhile isNameChar
  if mark.isPrefixOf s && name ≠ [] then some name else none

/-- The names that it reads in what the search prints. -/
def warnedCalls : Text → List Text
  | [] => []
  | c :: rest => (warnedAt (c :: rest)).toList ++ warnedCalls rest

/-! ## Queries -/

inductive Status where
  | sat | satApprox | unsat | unknown | unsupported | failed | timeout | replayMismatch
deriving DecidableEq

/-- `execution-contract.json` -/
structure ExecutionContract where
  semanticFidelity : Text
  stubUsed : List Text

def ExecutionContract.approximate (contract : ExecutionContract) : Bool :=
  contract.semanticFidelity.map Char.toLower = "approximate".toList || contract.stubUsed ≠ []

/-- What `build` leaves behind: `unsupported` is the status of its document of a failure. -/
structure Bundle where
  unsupported : Option Text := none
  manifest : Option Manifest
  contract : Option ExecutionContract := none

/-- The relocations of a snapshot; there are no `entries` where they are no list. -/
structure Relocations where
  complete : Bool
  entries : Option (List ℕ)

/-- The files of a snapshot, where they can be read. -/
structure SnapshotFiles where
  state : Option (List UInt8)
  pointerOffsets : Option (List (List ℕ))
  relocations : Option Relocations

structure Query where
  symbolicFields : Option (List Text) := none
  goalId : ℕ
  snapshot : Option SnapshotFiles := none

/-- How the run of a tool ends under the deadline. -/
inductive ToolRun (α : Type) where
  | expired
  | missing
  | unstartable
  | ended (returncode : ℤ) (result : α)

/-- What is found beside a `.ktest`: whether it can be decoded. -/
structure Ktest where
  decodable : Bool

inductive Replay where
  | expired
  | observed (observation : Observation)

/-- The answers of the tools to a query. -/
structure Answers where
  compile : ToolRun Bool
  link : ToolRun Bool
  klee : ToolRun Text
  goals : List (Option Ktest) := []
  tests : List Ktest := []
  replay : Replay := .expired
  runtimeIndex : RuntimeIndex := ∅

/-- The snapshot can be imported. -/
def SnapshotFiles.importable (files : SnapshotFiles) : Bool :=
  match files.state, files.pointerOffsets with
  | some state, some regions =>
    state ≠ [] && (regions.all (· = []) ||
      files.relocations.any fun relocations => relocations.complete && relocations.entries.isSome)
  | _, _ => false

def ToolRun.result {α : Type} : ToolRun α → Except Status α
  | .expired => .error .timeout
  | .missing => .error .unsupported
  | .unstartable => .error .failed
  | .ended returncode result => if returncode ≠ 0 then .error .failed else .ok result

/-- A tool that is to produce a file. -/
def produce (run : ToolRun Bool) : Except Status Unit := do
  let produced ← run.result
  if produced then .ok () else .error .failed

/-- The status that a document of a failure carries. -/
def unsupportedStatus (document : Text) : Status :=
  let status := document.map Char.toUpper
  if status = "FAILED".toList then .failed else if status = "TIMEOUT".toList then .timeout else .unsupported

/-- Everything up to the search; gives the manifest. -/
def prepare (bundle : Bundle) (query : Query) (answers : Answers) : Except Status Manifest :=
  match bundle.unsupported, bundle.manifest with
  | some document, _ => .error (unsupportedStatus document)
  | none, none => .error .unsupported
  | none, some manifest => do
    if query.snapshot.all SnapshotFiles.importable then
      produce answers.compile
      produce answers.link
      return manifest
    else .error .unsupported

/-- The status where no goal was reached. -/
def noGoalStatus (stderr : Text) (approximateModel : Bool) : Status :=
  if "completed paths".toList <:+: stderr ∧ approximateModel = false then .unsat else .unknown

/-- The status of a candidate that reaches a goal in the model. -/
def replayStatus (query : Query) (answers : Answers) (approximateModel : Bool) : Status :=
  match answers.replay with
  | .expired => .timeout
  | .observed observation =>
    if observation.timedOut then .timeout
    else if observation.hits[query.goalId]?.isNone then .replayMismatch
    else
      let modeling := answers.runtimeIndex[query.goalId]?.bind RuntimeEntry.modeling
      if modeling = some "conservative".toList ∨ modeling = some "opaque".toList then .satApprox
      else if (classify observation answers.runtimeIndex).isNone then .replayMismatch
      else if approximateModel then .satApprox
      else .sat

/-- The status of a search that ended. -/
def searchStatus (query : Query) (answers : Answers) (stderr : Text) (approximateModel : Bool) : Status :=
  match answers.goals with
  | [] =>
    match answers.tests with
    | [] => noGoalStatus stderr approximateModel
    | test :: _ => if test.decodable then noGoalStatus stderr approximateModel else .unknown
  | none :: _ => .unknown
  | some test :: _ => if test.decodable then replayStatus query answers approximateModel else .unknown

/-- The status of a query, with what its scope lists as imprecise. -/
structure QueryResult where
  status : Status
  imprecise : List Text := []

/-- `run_query` -/
def runQuery (abi : TargetAbi) (bundle : Bundle) (query : Query) (answers : Answers) : QueryResult :=
  match prepare bundle query answers with
  | .error status => { status }
  | .ok manifest =>
    let imprecise := scopeImprecise abi manifest query.symbolicFields
    match answers.klee.result with
    | .error status => { status, imprecise }
    | .ok stderr =>
      let imprecise := withNames imprecise (warnedCalls stderr)
      let approximateModel := imprecise ≠ [] || bundle.contract.any ExecutionContract.approximate
      { status := searchStatus query answers stderr approximateModel, imprecise }

/-! ## What stays imprecise -/

theorem mem_withNames {imprecise names : List Text} {name : Text} :
    name ∈ withNames imprecise names ↔ name ∈ imprecise ∨ name ∈ names := by
  unfold withNames
  split
  · rename_i h
    simp [h]
  · rw [mem_sortDedup, List.mem_append]

/-- What the manifest lists as imprecise is so in the scope of every query. -/
theorem mem_scopeImprecise {abi : TargetAbi} {manifest : Manifest} {name : Text}
    (requested : Option (List Text)) (h : name ∈ manifest.imprecise) :
    name ∈ scopeImprecise abi manifest requested := by
  have hmanifest : name ∈ manifest.imprecision := mem_sortDedup.2 (List.mem_append_left _ h)
  exact mem_withNames.2 (.inl (mem_withNames.2 (.inl hmanifest)))

theorem ToolRun.result_ne_unsat {α : Type} (run : ToolRun α) : run.result ≠ .error .unsat := by
  cases run with
  | ended returncode result =>
    intro h
    rw [ToolRun.result] at h
    split at h <;> cases h
  | _ => intro h; cases h

theorem produce_ne_unsat (run : ToolRun Bool) : produce run ≠ .error .unsat := by
  have hrun := run.result_ne_unsat
  unfold produce
  cases hresult : run.result with
  | error status =>
    rw [hresult] at hrun
    exact hrun ∘ fun h => by cases h; rfl
  | ok produced =>
    intro h
    cases produced <;> cases h

theorem prepare_ne_unsat (bundle : Bundle) (query : Query) (answers : Answers) :
    prepare bundle query answers ≠ .error .unsat := by
  have hcompile := produce_ne_unsat answers.compile
  have hlink := produce_ne_unsat answers.link
  unfold prepare
  split
  · rename_i document hunsupported hmanifest
    intro h
    simp only [unsupportedStatus, Except.error.injEq] at h
    split at h
    · cases h
    · split at h <;> cases h
  · intro h
    cases h
  · split
    · cases hproduced : produce answers.compile with
      | error status =>
        rw [hproduced] at hcompile
        exact hcompile ∘ fun h => by cases h; rfl
      | ok _ =>
        cases hlinked : produce answers.link with
        | error status =>
          rw [hlinked] at hlink
          exact hlink ∘ fun h => by cases h; rfl
        | ok _ =>
          intro h
          cases h
    · intro h
      cases h

theorem prepare_manifest {bundle : Bundle} {query : Query} {answers : Answers} {manifest : Manifest}
    (h : prepare bundle query answers = .ok manifest) : bundle.manifest = some manifest := by
  unfold prepare at h
  split at h
  · cases h
  · cases h
  · rename_i found hunsupported hmanifest
    split at h
    · cases hproduced : produce answers.compile with
      | error status => rw [hproduced] at h; cases h
      | ok _ =>
        cases hlinked : produce answers.link with
        | error status => rw [hproduced, hlinked] at h; cases h
        | ok _ =>
          rw [hproduced, hlinked] at h
          cases h
          exact hmanifest
    · cases h

theorem replayStatus_ne_unsat (query : Query) (answers : Answers) (approximateModel : Bool) :
    replayStatus query answers approximateModel ≠ .unsat := by
  unfold replayStatus
  split
  · intro h
    cases h
  split
  · intro h
    cases h
  split
  · intro h
    cases h
  dsimp only
  split
  · intro h
    cases h
  split
  · intro h
    cases h
  cases approximateModel <;> (intro h; cases h)

theorem searchStatus_ne_unsat (query : Query) (answers : Answers) (stderr : Text) :
    searchStatus query answers stderr true ≠ .unsat := by
  have hnone : noGoalStatus stderr true = .unknown := by
    apply if_neg
    rintro ⟨-, happroximate⟩
    cases happroximate
  have hunknown : Status.unknown ≠ .unsat := by decide
  unfold searchStatus
  rw [hnone]
  split
  · split
    · exact hunknown
    · split <;> exact hunknown
  · exact hunknown
  · split
    · exact replayStatus_ne_unsat query answers true
    · exact hunknown

/-- **Where the manifest lists an imprecise model, no query is answered by UNSAT.** -/
theorem runQuery_status_ne_unsat {abi : TargetAbi} {bundle : Bundle} {manifest : Manifest} {name : Text}
    (query : Query) (answers : Answers) (hbundle : bundle.manifest = some manifest) (h : name ∈ manifest.imprecise) :
    (runQuery abi bundle query answers).status ≠ .unsat := by
  have hprepare := prepare_ne_unsat bundle query answers
  have hklee := answers.klee.result_ne_unsat
  unfold runQuery
  split
  · rename_i status hstatus
    rintro (rfl : status = .unsat)
    exact hprepare hstatus
  · rename_i found hfound
    have hmanifest := prepare_manifest hfound
    rw [hbundle, Option.some.injEq] at hmanifest
    subst hmanifest
    split
    · rename_i status hstatus
      rintro (rfl : status = .unsat)
      exact hklee hstatus
    · rename_i stderr hstderr
      have hmem : name ∈ withNames (scopeImprecise abi manifest query.symbolicFields) (warnedCalls stderr) :=
        mem_withNames.2 (.inl (mem_scopeImprecise _ h))
      have happroximate : (decide (withNames (scopeImprecise abi manifest query.symbolicFields)
          (warnedCalls stderr) ≠ []) || bundle.contract.any ExecutionContract.approximate) = true := by
        rw [decide_eq_true (List.ne_nil_of_mem hmem), Bool.true_or]
      simp only [happroximate]
      exact searchStatus_ne_unsat query answers stderr

/-! ## What is reached and listed -/

/-- A modelled name is listed as imprecise where it is read as reached. -/
theorem mem_manifestOf {lines : List Text} {target : Text} {abi : TargetAbi} {name : Text}
    (hname : name ∈ havoc ++ approximating) :
    name ∈ (manifestOf lines target abi).imprecise ↔ (bodiesOf lines).Reached target name := by
  have hconcretizing : name ∉ concretizing abi := by
    intro hmem
    unfold concretizing at hmem
    split at hmem
    · cases hmem
    · rw [List.mem_singleton] at hmem
      subst hmem
      exact absurd hname (by decide +kernel)
  rw [← mem_symbolsOf, manifestOf, mem_sortDedup, List.mem_append, List.mem_filter, decide_eq_true_eq]
  exact ⟨fun h => (h.resolve_right hconcretizing).2, fun h => .inl ⟨hname, h⟩⟩

/-- A function block `FB` that calls its method `FB.run`, which calls `EXP__REAL`. -/
def methodModule : Module :=
  [ .function {
      head := "void ".toList
      name := "FB".toList
      signature := "ptr %0) \x7b".toList
      body := [.call "  ".toList "void ".toList "FB.run".toList "(ptr %0)".toList, .other "  ret void".toList] },
    .other [],
    .function {
      head := "float ".toList
      name := "FB.run".toList
      signature := "ptr %0) \x7b".toList
      body := [.call "  %1 = ".toList "float ".toList "EXP__REAL".toList "(float 1.0)".toList,
        .other "  ret float %1".toList] } ]

/-- Its target, without parameters. -/
def methodAbi : TargetAbi where
  kind := .function
  params := []
  stateFields := []
  fieldName := by decide
  oneName := by decide
  nodup_params := .nil
  nodup_stateFields := .nil
  members := rfl

end SemantiST.Symbolic
