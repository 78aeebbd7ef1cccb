import Std.Data.ExtTreeMap
import SemantiST.Lib.Rust
import SemantiST.Lib.Sort

/-!
# The task plan

`fuzzer/semantic/runtime.rs`: the tasks the scheduler is given, what an execution of a seed showed,
and the estimates computed from the two.  An `f64` is a `Float`; a JSON value is its text.
-/

namespace SemantiST.Semantic

open Lib

/-! ## Data -/

/-- The parts of a candidate path that the scheduler reads. -/
structure CandidatePath where
  targetIds : List Text
  edgeIds : List Text

structure ControlObligation where
  targetId : Text
  kind : Text
  role : Option Text
  evaluationEdgeId : Text
  goalExpressionId : Option Text
  goalExpression : Option Text
  modelingStatus : Text

structure StateTransfer where
  edgeId : Text
  reads : List Text
  writes : List Text
  versionsIn : List (Text × ℕ)
  versionsOut : List (Text × ℕ)
  operations : List Text
  modelingStatus : Text

structure TemporalRequirement where
  edgeId : Text
  persistentSymbols : List Text
  minimumCycles : ℕ
  modelingStatus : Text

structure ControllableSeedField where
  symbol : Text
  seedField : Option Text
  role : Option Text
  typeName : Option Text
  configurationSource : Option Text
  typeFact : Option Text

structure SemanticTask where
  taskId : Text
  taskKind : Text
  pou : Text
  terminalTargetId : Text
  candidatePaths : List CandidatePath := []
  orderedWaypoints : List Text := []
  controlObligations : List ControlObligation := []
  /-- The `symbol` of each data dependency. -/
  dataDependencies : List Text := []
  stateTransferChains : List StateTransfer := []
  temporalRequirements : List TemporalRequirement := []
  hazardPrerequisites : List Text := []
  controllableSeedFields : List ControllableSeedField := []
  modelingStatus : Text := []
  unlockedTargets : List Text := []
  terminalKind : Option Text := none
  terminalHazard : Option Text := none
  terminalGoalExpressionId : Option Text := none
  terminalGoalExpression : Option Text := none

structure EffortNormalization where
  ec : Float := 1
  ed : Float := 1
  es : Float := 1
  et : Float := 1
  eh : Float := 1

structure SemanticTaskPlan where
  tasks : List SemanticTask
  normalizationByPou : Std.ExtTreeMap Text EffortNormalization compare := ∅

/-- What one corpus entry's execution showed. -/
structure SeedProfile where
  seedId : ℕ := 0
  orderedTargetIds : List Text := []
  orderedTraceComplete : Bool := false
  coveredTargetIds : List Text := []
  coveredTargetsByCycle : Std.ExtTreeMap Text (List Text) compare := ∅
  cycleIds : List ℕ := []
  stateSignatures : List Text := []
  targetAffinity : Std.ExtTreeMap Text Float compare := ∅
  parentId : Option ℕ := none

/-- The fields `cache_seed_profile` compares agree. -/
def SeedProfile.sameEvidence (stored profile : SeedProfile) : Bool :=
  stored.coveredTargetIds == profile.coveredTargetIds &&
    stored.orderedTargetIds == profile.orderedTargetIds &&
    stored.orderedTraceComplete == profile.orderedTraceComplete &&
    stored.coveredTargetsByCycle.toList == profile.coveredTargetsByCycle.toList &&
    stored.cycleIds == profile.cycleIds &&
    stored.stateSignatures == profile.stateSignatures &&
    stored.targetAffinity.toList == profile.targetAffinity.toList &&
    stored.parentId == profile.parentId

/-! ## Paths -/

/-- A task with a waypoint to reach. -/
def taskHasExecutablePath (task : SemanticTask) : Bool :=
  !task.orderedWaypoints.isEmpty || task.candidatePaths.any fun path => !path.targetIds.isEmpty

/-- How much of a path was observed, in its order.  (The source stops at the end of the path, where
nothing more can match.) -/
def orderedPrefixLen {α : Type} [DecidableEq α] (path observed : List α) : ℕ :=
  observed.foldl (fun matched target =>
    if path[matched]? = some target then matched + 1 else matched) 0

/-- The same over interned targets; a path entry that is not interned is never observed. -/
def orderedPrefixLenIndexed (path : List (Option ℕ)) (observed : List ℕ) : ℕ :=
  orderedPrefixLen path (observed.map some)

def remainingPath (path covered : List Text) : List Text :=
  path.dropWhile fun targetId => covered.contains targetId

def chooseActivePath (task : SemanticTask) (covered : List Text) : List Text :=
  (minBy (fun left right =>
      (compare (remainingPath left covered).length (remainingPath right covered).length).then
        ((compare left.length right.length).then (compare left right)))
    ((task.candidatePaths.map CandidatePath.targetIds).filter fun path => !path.isEmpty)).getD
    task.orderedWaypoints

/-- The path of a task for a seed, and how much of it the seed has shown. -/
def seedPath (task : SemanticTask) : Option SeedProfile → List Text × ℕ
  | none => (chooseActivePath task [], 0)
  | some seed =>
    let key (path : List Text) := path.length - orderedPrefixLen path seed.orderedTargetIds
    let path := (minBy (fun left right =>
        (compare (key left) (key right)).then
          ((compare left.length right.length).then (compare left right)))
      ((task.candidatePaths.map CandidatePath.targetIds).filter fun path => !path.isEmpty)).getD
      task.orderedWaypoints
    (path, orderedPrefixLen path seed.orderedTargetIds)

/-! ## Estimates -/

/-- `f64::max`. -/
def fmax (a b : Float) : Float :=
  if a.isNaN then b else if b.isNaN then a else if a < b then b else a

/-- `f64::clamp`. -/
def fclamp (a lo hi : Float) : Float := if a < lo then lo else if hi < a then hi else a

/-- `f64::total_cmp`: the bits, with those of a negative number turned round. -/
def totalCmp (a b : Float) : Ordering :=
  let key (x : Float) : ℤ :=
    let bits : ℕ := x.toBits.toNat
    if bits < 2 ^ 63 then (bits : ℤ) else -1 - ((bits : ℤ) - 2 ^ 63)
  compare (key a) (key b)

def effort (seed : SeedProfile) (task : SemanticTask) (norm : EffortNormalization) : Float :=
  let (activePath, matched) := seedPath task (some seed)
  let covered := activePath.take matched
  let remaining := activePath.drop matched
  let ec := Float.ofNat (task.controlObligations.countP fun obligation =>
    remaining.contains obligation.targetId) / fmax norm.ec 1
  let affinity := fclamp ((seed.targetAffinity[task.taskId]?).getD 0) 0 1
  let ed := Float.ofNat task.dataDependencies.length * (1 - affinity) / fmax norm.ed 1
  let stateProgress := if seed.stateSignatures.isEmpty then 0 else affinity
  let es := Float.ofNat task.stateTransferChains.length * (1 - stateProgress) / fmax norm.es 1
  let completedTemporal := seed.cycleIds.length - 1
  let requiredTemporal := (task.temporalRequirements.map fun r => r.minimumCycles - 1).foldl max 0
  let et := Float.ofNat (requiredTemporal - completedTemporal) / fmax norm.et 1
  let eh := Float.ofNat ((task.hazardPrerequisites.countP fun target => !covered.contains target) +
    if covered.contains task.terminalTargetId then 0 else 1) / fmax norm.eh 1
  ec + ed + es + et + eh

def defaultEffort (task : SemanticTask) (norm : EffortNormalization) : Float := effort {} task norm

def taskGain (task : SemanticTask) (covered : Text → Bool) : Float :=
  let exactViolation :=
    if task.taskKind = "violation".toList ∧ task.modelingStatus = "exact".toList ∧
      covered task.terminalTargetId = false then 1 else 0
  let unlockedHazards := task.unlockedTargets.countP fun target => !covered target
  let semanticKinds := (task.controlObligations.map ControlObligation.kind).dedup
  let novelty :=
    let share := Float.ofNat semanticKinds.length / 7
    if 1 < share then 1 else share
  Float.ofNat (exactViolation + unlockedHazards) + novelty

def seedHasSemanticInformation (seed : SeedProfile) : Bool :=
  !seed.coveredTargetIds.isEmpty || !seed.coveredTargetsByCycle.isEmpty ||
    !seed.stateSignatures.isEmpty || !seed.targetAffinity.isEmpty || 1 < seed.cycleIds.length

def taskAffectedBySeed (task : SemanticTask) (seed : SeedProfile) : Bool :=
  (task.orderedWaypoints ++ task.candidatePaths.flatMap CandidatePath.targetIds ++
      task.hazardPrerequisites ++ task.unlockedTargets).any (seed.coveredTargetIds.contains ·) ||
    (seed.targetAffinity[task.taskId]?).any (0 < ·) ||
    (!seed.stateSignatures.isEmpty && !task.stateTransferChains.isEmpty) ||
    (1 < seed.cycleIds.length && !task.temporalRequirements.isEmpty)

end SemantiST.Semantic
