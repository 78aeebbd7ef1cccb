import Std.Data.ExtTreeSet
import SemantiST.Semantic.Plan

/-!
# The scheduler's runtime metadata

`SemanticRuntimeMetadata` of `fuzzer/semantic/runtime.rs` and its operations.
-/

namespace SemantiST.Semantic

open Lib

/-! ## Data -/

inductive TaskStatus where
  | blocked | ready | active | covered | deferred | unmapped
  deriving DecidableEq

structure TaskRuntimeState where
  status : TaskStatus := .ready
  failedAttempts : ℕ := 0
  attempts : ℕ := 0
  guideSuccesses : Std.ExtTreeMap Text ℕ compare := ∅
  bestPrefixByPath : Std.ExtTreeMap Text ℕ compare := ∅
  deferredAtCoverageEpoch : Option ℕ := none
  retryAfterSelection : ℕ := 0
  deferredAtCorpusEpoch : ℕ := 0
  lastGuideTargetId : Option Text := none
  priority : Float := 0
  basePriority : Float := 0
  gain : Float := 0
  minimumEffort : Float := 0
  bestSeedId : Option ℕ := none
  activePath : List Text := []
  guideTargetId : Option Text := none
  remainingObligations : List Text := []
  prerequisites : List Text := []
  unlockedTargets : List Text := []

structure AttemptHistory where
  taskId : Text
  guideTargetId : Option Text
  pathKey : Option Text
  guideIndex : Option ℕ
  seedId : Option ℕ
  covered : Bool
  coverageEpoch : ℕ

structure RankedSeed where
  seedId : ℕ
  effort : Float

structure RankingStatistics where
  rankingCount : ℕ := 0
  fullRebuildCount : ℕ := 0
  incrementalSeedUpdates : ℕ := 0
  seedProfileBuildCount : ℕ := 0
  rerankReasons : Std.ExtTreeMap Text ℕ compare := ∅

structure ActiveSelection where
  taskId : Text
  terminalTargetId : Text
  guideTargetId : Text
  guideIndex : ℕ
  activePath : List Text
  remainingObligations : List Text
  bestSeedId : Option ℕ
  priority : Float
  controlObligation : Option ControlObligation
  controllableSeedFields : List ControllableSeedField
  backwardDependencies : List Text
  hazardPrerequisites : List Text
  modelingStatus : Text
  taskKind : Text
  targetKind : Option Text
  hazardKind : Option Text
  goalExpressionId : Option Text
  goalExpression : Option Text
  cycleHint : Option ℕ
  stateTransferChains : List StateTransfer
  temporalRequirements : List TemporalRequirement

/-- The fields of the metadata that say what is selected. -/
structure SelectionFields where
  activeTaskId : Option Text := none
  guideTargetId : Option Text := none
  activePath : List Text := []
  activePathKey : Option Text := none
  activeGuideIndex : Option ℕ := none
  activeSelectionSucceeded : Bool := false
  bestSeedId : Option ℕ := none
  activeSelection : Option ActiveSelection := none
  activePathIndices : List (Option ℕ) := []

/-- The fields of the metadata that decide what happens to a task. -/
structure SchedulerCore extends SelectionFields where
  plan : SemanticTaskPlan
  taskStates : Std.ExtTreeMap Text TaskRuntimeState compare
  coveredTargetIds : Std.ExtTreeSet Text compare := ∅
  coverageEpoch : ℕ := 0
  selectionEpoch : ℕ := 0
  corpusEpoch : ℕ := 0
  targetIndices : Std.ExtTreeMap Text ℕ compare := ∅

/-- The metadata: these fields, the diagnostics and what tasks are ranked by. -/
structure SemanticRuntimeMetadata extends SchedulerCore where
  attemptHistory : List AttemptHistory := []
  ranking : List Text := []
  seedProfiles : Std.ExtTreeMap ℕ SeedProfile compare := ∅
  topSeedsByTask : Std.ExtTreeMap Text (List RankedSeed) compare := ∅
  rankingDirty : Bool
  rankingStatistics : RankingStatistics := {}
  lastRerankReason : Option Text := none
  targetNames : List Text := []
  coveredMask : List Bool := []

def deferAfterFailures : ℕ := 3
def topSeedsPerTask : ℕ := 4
def failureDecayRho : Float := 0.25

def taskStatusRank : TaskStatus → ℕ
  | .ready | .active => 0
  | .deferred => 1
  | .blocked => 2
  | .unmapped => 3
  | .covered => 4

/-! ## Selections -/

/-- The key under which the best observed part of a path is kept. -/
def pathKeyOf (task : SemanticTask) (activePath : List Text) : Text :=
  let index := task.candidatePaths.findIdx fun path => path.targetIds = activePath
  if index < task.candidatePaths.length then "candidate:".toList ++ decimal index
  else "ordered_waypoints".toList

/-- The transfers on the selected path before the branch of the guide; none when several candidate
paths have the same waypoints. -/
def stateTransfersFor (task : SemanticTask) (activePath : List Text)
    (controlObligation : Option ControlObligation) : List StateTransfer :=
  let selectedEdges :=
    match task.candidatePaths.filter fun path => path.targetIds = activePath with
    | [path] => path.edgeIds
    | _ => []
  let transferEnd :=
    match controlObligation with
    | none => selectedEdges.length
    | some control =>
      let index := selectedEdges.findIdx fun edge => edge = control.evaluationEdgeId
      if index < selectedEdges.length then index else 0
  (selectedEdges.take transferEnd).filterMap fun edge =>
    task.stateTransferChains.find? fun transfer => transfer.edgeId = edge

/-- The selection that `activate_task_with_seed_mode` returns. -/
def selectionOf (task : SemanticTask) (activePath : List Text) (matched : ℕ) (guideTargetId : Text)
    (bestSeedId : Option ℕ) (priority : Float) : ActiveSelection :=
  let controlObligation := task.controlObligations.find? fun obligation =>
    obligation.targetId = guideTargetId
  { taskId := task.taskId
    terminalTargetId := task.terminalTargetId
    guideTargetId := guideTargetId
    guideIndex := matched
    activePath := activePath
    remainingObligations := activePath.drop matched
    bestSeedId := bestSeedId
    priority := priority
    controlObligation := controlObligation
    controllableSeedFields := task.controllableSeedFields
    backwardDependencies := task.dataDependencies
    hazardPrerequisites := task.hazardPrerequisites
    modelingStatus := task.modelingStatus
    taskKind := task.taskKind
    targetKind :=
      (controlObligation.map ControlObligation.kind).or
        ((if task.hazardPrerequisites.contains guideTargetId then some "hazard_reach".toList
          else none).or
          (if guideTargetId = task.terminalTargetId then task.terminalKind else none))
    hazardKind := task.terminalHazard
    goalExpressionId :=
      (controlObligation.bind ControlObligation.goalExpressionId).or task.terminalGoalExpressionId
    goalExpression :=
      (controlObligation.bind ControlObligation.goalExpression).or task.terminalGoalExpression
    cycleHint := (task.temporalRequirements.map TemporalRequirement.minimumCycles).max?
    stateTransferChains := stateTransfersFor task activePath controlObligation
    temporalRequirements := task.temporalRequirements }

/-! ## The rules of the core -/

namespace SchedulerCore

def setTask (s : SchedulerCore) (taskId : Text) (runtime : TaskRuntimeState) : SchedulerCore :=
  { s with taskStates := s.taskStates.insert taskId runtime }

def indexPath (s : SchedulerCore) (path : List Text) : List (Option ℕ) :=
  path.map fun targetId => s.targetIndices[targetId]?

/-- The rule of `refresh_states` for one task: its new state, and whether it was reactivated. -/
def refreshTask (s : SchedulerCore) (task : SemanticTask) (runtime : TaskRuntimeState) :
    TaskRuntimeState × Bool :=
  if runtime.status = .unmapped then (runtime, false)
  else if !taskHasExecutablePath task then ({ runtime with status := .blocked }, false)
  else if s.coveredTargetIds.contains task.terminalTargetId then
    ({ runtime with status := .covered }, false)
  else if runtime.status = .deferred then
    if runtime.deferredAtCoverageEpoch.getD s.coverageEpoch < s.coverageEpoch ∨
        runtime.deferredAtCorpusEpoch < s.corpusEpoch ∨
        runtime.retryAfterSelection ≤ s.selectionEpoch then
      ({ runtime with
        status := .ready
        deferredAtCoverageEpoch := none
        failedAttempts := min runtime.failedAttempts (deferAfterFailures - 1) }, true)
    else (runtime, false)
  else if runtime.status ≠ .active then ({ runtime with status := .ready }, false)
  else (runtime, false)

/-- An Active task becomes Ready. -/
def deactivate (s : SchedulerCore) (taskId : Text) : SchedulerCore :=
  match s.taskStates[taskId]? with
  | some runtime =>
    if runtime.status = .active then
      s.setTask taskId { runtime with status := .ready }
    else s
  | none => s

def suspendSelection (s : SchedulerCore) : SchedulerCore :=
  let s :=
    match s.activeTaskId with
    | some taskId => { s.deactivate taskId with activeTaskId := none }
    | none => s
  { s with
    guideTargetId := none
    bestSeedId := none
    activePath := []
    activePathIndices := []
    activePathKey := none
    activeGuideIndex := none
    activeSelectionSucceeded := false
    activeSelection := none }

/-- The task that was active before makes room for another one. -/
def release (s : SchedulerCore) (taskId : Text) : SchedulerCore :=
  match s.activeTaskId with
  | some previous =>
    { (if previous ≠ taskId then s.deactivate previous else s) with activeTaskId := none }
  | none => s

/-- What activating a task with a guide writes. -/
def activateGuide (s : SchedulerCore) (task : SemanticTask) (activePath : List Text)
    (matched : ℕ) (guideTargetId : Text) (bestSeedId : Option ℕ) (priority : Float) :
    SchedulerCore :=
  let s := s.release task.taskId
  let s :=
    match s.taskStates[task.taskId]? with
    | some runtime => s.setTask task.taskId { runtime with
        status := .active
        lastGuideTargetId := some guideTargetId
        bestSeedId := bestSeedId
        activePath := activePath
        guideTargetId := some guideTargetId
        remainingObligations := activePath.drop matched }
    | none => s
  { s with
    activeTaskId := some task.taskId
    guideTargetId := some guideTargetId
    activePath := activePath
    activePathIndices := s.indexPath activePath
    activeGuideIndex := some matched
    activePathKey := some (pathKeyOf task activePath)
    activeSelectionSucceeded := false
    bestSeedId := bestSeedId
    activeSelection := some (selectionOf task activePath matched guideTargetId bestSeedId priority) }

/-- A failure of an assigned window, which defers the task once there are too many. -/
def recordFailure (s : SchedulerCore) (taskId : Text) (runtime : TaskRuntimeState) : SchedulerCore :=
  let runtime := { runtime with
    attempts := saturatingAdd runtime.attempts 1
    failedAttempts := saturatingAdd runtime.failedAttempts 1 }
  if deferAfterFailures ≤ runtime.failedAttempts then
    let s := s.setTask taskId { runtime with
      status := .deferred
      deferredAtCoverageEpoch := some s.coverageEpoch
      deferredAtCorpusEpoch := s.corpusEpoch
      retryAfterSelection := saturatingAdd s.selectionEpoch 128 }
    if s.activeTaskId = some taskId then s.suspendSelection else s
  else s.setTask taskId runtime

end SchedulerCore

namespace SemanticRuntimeMetadata

/-! ## Seeds and targets -/

def initialStatus (mappedTargets : List Text) (task : SemanticTask) : TaskStatus :=
  if !mappedTargets.contains task.terminalTargetId then .unmapped
  else if !taskHasExecutablePath task then .blocked
  else .ready

def new (plan : SemanticTaskPlan) (mappedTargets : List Text) : SemanticRuntimeMetadata where
  plan := plan
  taskStates := plan.tasks.foldl (fun states task =>
    states.insert task.taskId { status := initialStatus mappedTargets task }) ∅
  rankingDirty := true
  lastRerankReason := some "initialization".toList

def markRankingDirty (s : SemanticRuntimeMetadata) (reason : Text) : SemanticRuntimeMetadata :=
  { s with
    rankingDirty := true
    lastRerankReason := some reason
    rankingStatistics := { s.rankingStatistics with
      rerankReasons := s.rankingStatistics.rerankReasons.insert reason
        ((s.rankingStatistics.rerankReasons[reason]?.getD 0 + 1) % (u64Max + 1)) } }

/-- The normalization of a task's POU. -/
def normalization (s : SemanticRuntimeMetadata) (task : SemanticTask) : EffortNormalization :=
  (s.plan.normalizationByPou[task.pou]?).getD {}

/-- The best seeds of a task once `profile` is ranked among them. -/
def rankSeed (s : SemanticRuntimeMetadata) (profile : SeedProfile) (task : SemanticTask)
    (top : List RankedSeed) : List RankedSeed :=
  (sortBy (fun left right => (totalCmp left.effort right.effort).then
      (compare left.seedId right.seedId))
    ((top.filter fun entry => entry.seedId ≠ profile.seedId) ++
      [⟨profile.seedId, effort profile task (s.normalization task)⟩])).take topSeedsPerTask

/-- The seeds and their efforts are the same. -/
def sameRanking (before top : List RankedSeed) : Bool :=
  before.map (fun entry => (entry.seedId, entry.effort)) ==
    top.map fun entry => (entry.seedId, entry.effort)

/-- The profile is stored; a new seed starts a new corpus epoch. -/
def storeProfile (s : SemanticRuntimeMetadata) (profile : SeedProfile) : SemanticRuntimeMetadata :=
  { s with
    corpusEpoch :=
      if s.seedProfiles.contains profile.seedId then s.corpusEpoch else saturatingAdd s.corpusEpoch 1
    rankingStatistics := { s.rankingStatistics with
      seedProfileBuildCount := saturatingAdd s.rankingStatistics.seedProfileBuildCount 1 }
    seedProfiles := s.seedProfiles.insert profile.seedId profile }

/-- The profile is ranked among the best seeds of the affected tasks; the flag says whether one of
these rankings has changed. -/
def rankSeedInTasks (s : SemanticRuntimeMetadata) (profile : SeedProfile)
    (affected : SemanticTask → Bool) : SemanticRuntimeMetadata × Bool :=
  let (tops, topChanged) := s.plan.tasks.foldl (fun (tops, topChanged) task =>
    if !affected task then (tops, topChanged)
    else
      let before := (tops[task.taskId]?).getD []
      let top := s.rankSeed profile task before
      (tops.insert task.taskId top, topChanged || !sameRanking before top))
    (s.topSeedsByTask, false)
  ({ s with
    topSeedsByTask := tops
    rankingStatistics := { s.rankingStatistics with
      incrementalSeedUpdates := saturatingAdd s.rankingStatistics.incrementalSeedUpdates 1 } },
    topChanged)

def cacheSeedProfile (s : SemanticRuntimeMetadata) (profile : SeedProfile) :
    SemanticRuntimeMetadata × Bool :=
  let previous := s.seedProfiles[profile.seedId]?
  if previous.any fun stored => stored.sameEvidence profile then (s, false)
  else
    let firstSeed := s.seedProfiles.isEmpty
    let (s, topChanged) := (s.storeProfile profile).rankSeedInTasks profile fun task =>
      firstSeed || taskAffectedBySeed task profile || previous.any (taskAffectedBySeed task)
    if firstSeed then (s.markRankingDirty "initial_seed_profiles".toList, topChanged)
    else if topChanged && seedHasSemanticInformation profile then
      (s.markRankingDirty "new_semantic_seed".toList, topChanged)
    else (s, topChanged)

def invalidateSeed (s : SemanticRuntimeMetadata) (seedId : ℕ) : SemanticRuntimeMetadata :=
  if !s.seedProfiles.contains seedId then s
  else
    let s := { s with
      seedProfiles := s.seedProfiles.erase seedId
      topSeedsByTask := s.topSeedsByTask.map fun _ top =>
        top.filter fun entry => entry.seedId ≠ seedId }
    if s.bestSeedId = some seedId then
      { s with activeSelection := none }.markRankingDirty "best_seed_invalidated".toList
    else s

def setTargetNames (s : SemanticRuntimeMetadata) (names : List Text) : SemanticRuntimeMetadata :=
  let s := { s with
    targetIndices := names.zipIdx.foldl (fun m (p : Text × ℕ) => m.insert p.1 (p.2 % (u32Max + 1))) ∅
    coveredMask := names.map fun name => s.coveredTargetIds.contains name
    targetNames := names }
  { s with activePathIndices := s.indexPath s.activePath }

/-! ## Task states -/

/-- One round of the loop of `refresh_states`. -/
def refreshStep (s : SemanticRuntimeMetadata)
    (acc : Std.ExtTreeMap Text TaskRuntimeState compare × Bool) (task : SemanticTask) :
    Std.ExtTreeMap Text TaskRuntimeState compare × Bool :=
  match acc.1[task.taskId]? with
  | none => acc
  | some runtime =>
    let (runtime, reactivated) := s.refreshTask task runtime
    (acc.1.insert task.taskId runtime, acc.2 || reactivated)

def refreshStates (s : SemanticRuntimeMetadata) : SemanticRuntimeMetadata :=
  let (states, reactivated) := s.plan.tasks.foldl s.refreshStep (s.taskStates, false)
  let s := { s with taskStates := states }
  if reactivated then s.markRankingDirty "task_reactivated".toList else s

def tickSelection (s : SemanticRuntimeMetadata) : SemanticRuntimeMetadata :=
  let s := { s with selectionEpoch := saturatingAdd s.selectionEpoch 1 }
  if s.selectionEpoch % 32 = 0 then s.refreshStates else s

def suspendSelection (s : SemanticRuntimeMetadata) : SemanticRuntimeMetadata :=
  { s with toSchedulerCore := s.toSchedulerCore.suspendSelection }

/-! ## Attempts -/

def pushAttempt (s : SemanticRuntimeMetadata) (attempt : AttemptHistory) : SemanticRuntimeMetadata :=
  let history := if 1024 ≤ s.attemptHistory.length then s.attemptHistory.drop 512 else s.attemptHistory
  { s with attemptHistory := history ++ [attempt] }

def guideIdentity (pathKey : Text) (guideIndex : ℕ) (targetId : Text) : Text :=
  pathKey ++ nul :: (decimal guideIndex ++ nul :: targetId)

/-- The three fields of an identity (`splitn(3, '\0')`), when the second is a number. -/
def identityFields (identity : Text) : Option (Text × ℕ × Text) := do
  let (pathKey, rest) ← splitOnce nul identity
  let (index, guide) ← splitOnce nul rest
  let guideIndex ← parseUnsigned u64Max index
  return (pathKey, guideIndex, guide)

/-- A success of an assigned window. -/
def recordSuccess (s : SemanticRuntimeMetadata) (taskId identity : Text)
    (runtime : TaskRuntimeState) : SemanticRuntimeMetadata :=
  let s := { s with toSchedulerCore := s.setTask taskId { runtime with
    attempts := saturatingAdd runtime.attempts 1
    failedAttempts := 0
    guideSuccesses := runtime.guideSuccesses.insert identity
      (saturatingAdd ((runtime.guideSuccesses[identity]?).getD 0) 1) } }
  if runtime.failedAttempts ≠ 0 then s.markRankingDirty "guide_success".toList else s

/-- A failure of an assigned window. -/
def recordFailure (s : SemanticRuntimeMetadata) (taskId : Text) (runtime : TaskRuntimeState) :
    SemanticRuntimeMetadata :=
  let s := { s with toSchedulerCore := s.toSchedulerCore.recordFailure taskId runtime }.markRankingDirty
    "budget_failed".toList
  if deferAfterFailures ≤ saturatingAdd runtime.failedAttempts 1 then
    s.markRankingDirty "task_deferred".toList
  else s

def recordAssignedAttempt (s : SemanticRuntimeMetadata) (taskId identity : Text) (covered : Bool)
    (seedId : Option ℕ) : SemanticRuntimeMetadata :=
  match identityFields identity with
  | none => s
  | some (pathKey, guideIndex, guide) =>
    let s := s.pushAttempt {
      taskId := taskId
      guideTargetId := some guide
      pathKey := some pathKey
      guideIndex := some guideIndex
      seedId := seedId
      covered := covered
      coverageEpoch := s.coverageEpoch }
    match s.taskStates[taskId]? with
    | none => s
    | some runtime =>
      if covered then s.recordSuccess taskId identity runtime else s.recordFailure taskId runtime

def recordAttempt (s : SemanticRuntimeMetadata) (covered : Bool) (seedId : Option ℕ) :
    SemanticRuntimeMetadata :=
  match s.activeTaskId, s.guideTargetId with
  | some taskId, some guideTargetId =>
    if covered && s.activeSelectionSucceeded then s
    else
      let s := if covered then { s with activeSelectionSucceeded := true } else s
      s.recordAssignedAttempt taskId (guideIdentity (s.activePathKey.getD "unassigned".toList)
        (s.activeGuideIndex.getD 0) guideTargetId) covered seedId
  | _, _ => s

def recordBudgetFailure (s : SemanticRuntimeMetadata) (taskId identity : Text) :
    SemanticRuntimeMetadata :=
  if (s.taskStates[taskId]?).any fun runtime =>
      runtime.status = .ready ∨ runtime.status = .active then
    s.recordAssignedAttempt taskId identity false none
  else s

/-! ## Executions -/

/-- One hit of an execution; the flag says whether a target was covered for the first time. -/
def coverIndex (acc : SemanticRuntimeMetadata × Bool) (index : ℕ) : SemanticRuntimeMetadata × Bool :=
  let (s, advanced) := acc
  match s.targetNames[index]? with
  | none => acc
  | some name =>
    let mask := s.coveredMask ++ List.replicate (index + 1 - s.coveredMask.length) false
    let s := { s with coveredMask := mask }
    if mask[index]?.getD false then (s, advanced)
    else
      ({ s with
          coveredMask := mask.set index true
          coveredTargetIds := s.coveredTargetIds.insert name },
        advanced || !s.coveredTargetIds.contains name)

/-- The best observed part of the selected path; the flag says whether it has grown. -/
def improvePrefix (s : SemanticRuntimeMetadata) (taskId : Text) (matched : ℕ) :
    SemanticRuntimeMetadata × Bool :=
  match s.taskStates[taskId]?, s.activePathKey with
  | some runtime, some pathKey =>
    let improved : Bool :=
      match runtime.bestPrefixByPath[pathKey]? with
      | some best => best < matched
      | none => 0 < matched
    if improved then
      ({ s with toSchedulerCore := s.setTask taskId { runtime with
          bestPrefixByPath := runtime.bestPrefixByPath.insert pathKey matched } }, true)
    else (s, false)
  | _, _ => (s, false)

/-- The hits of an execution; new coverage starts a new coverage epoch. -/
def coverHits (s : SemanticRuntimeMetadata) (hits : List ℕ) : SemanticRuntimeMetadata × Bool :=
  let (s, advanced) := hits.foldl coverIndex (s, false)
  if advanced then
    ({ s with coverageEpoch := saturatingAdd s.coverageEpoch 1 }.refreshStates, true)
  else (s, false)

/-- What the observed order shows of the selected path. -/
def recordOrdered (s : SemanticRuntimeMetadata) (ordered : List ℕ) : SemanticRuntimeMetadata × Bool :=
  match s.activeTaskId with
  | some taskId =>
    let matched := orderedPrefixLenIndexed s.activePathIndices ordered
    let (s, improved) := s.improvePrefix taskId matched
    let guideCovered := !s.activeSelectionSucceeded && s.activeGuideIndex.any (· < matched)
    (if guideCovered then s.recordAttempt true s.bestSeedId else s, improved)
  | none => (s, false)

def recordIndexedExecution (s : SemanticRuntimeMetadata) (hits ordered : List ℕ)
    (_orderedTraceComplete : Bool) : SemanticRuntimeMetadata × Bool :=
  let (s, advanced) := s.coverHits hits
  let (s, prefixImproved) := s.recordOrdered ordered
  (if advanced then s.markRankingDirty "semantic_coverage".toList else s,
    advanced || prefixImproved)

/-! ## Selection -/

def selectSeedForTask (s : SemanticRuntimeMetadata) (task : SemanticTask) (seedRank : ℕ)
    (broadenSeed : Bool) : Option ℕ :=
  let ranked := do
    let seeds ← s.topSeedsByTask[task.taskId]?
    let seed ← seeds[min seedRank (seeds.length - 1)]?
    return seed.seedId
  if broadenSeed then (s.seedProfiles.keys[seedRank]?).or ranked else ranked

def activateTaskWithSeedMode (s : SemanticRuntimeMetadata) (taskId : Text) (seedRank : ℕ)
    (broadenSeed : Bool) : SemanticRuntimeMetadata × Option ActiveSelection :=
  match s.taskStates[taskId]?, s.plan.tasks.find? fun task => task.taskId = taskId with
  | some runtime, some task =>
    if runtime.status ≠ .ready ∧ runtime.status ≠ .active then (s, none)
    else
      let bestSeedId := (s.selectSeedForTask task seedRank broadenSeed).or runtime.bestSeedId
      let (activePath, matched) := seedPath task (bestSeedId.bind (s.seedProfiles[·]?))
      match activePath[matched]? with
      | none => (s, none)
      | some guideTargetId =>
        let core := s.toSchedulerCore.activateGuide task activePath matched guideTargetId bestSeedId
          runtime.priority
        ({ s with toSchedulerCore := core }, core.activeSelection)
  | _, _ => (s, none)

def activateTask (s : SemanticRuntimeMetadata) (taskId : Text) (seedRank : ℕ) :
    SemanticRuntimeMetadata × Option ActiveSelection :=
  s.activateTaskWithSeedMode taskId seedRank false

/-! ## Ranking -/

/-- The seed a task is ranked with, and the effort it leaves. -/
def rankedWith (s : SemanticRuntimeMetadata) (task : SemanticTask) : Float × Option SeedProfile :=
  let seedScores := ((s.topSeedsByTask[task.taskId]?).getD []).filterMap fun ranked =>
    (s.seedProfiles[ranked.seedId]?).map fun seed => (ranked.effort, some seed)
  seedScores.head?.getD (defaultEffort task (s.normalization task), none)

/-- The loop of `rebuild_selection`: the tasks that can be selected, with their priorities.  It ends
early at a task without a state. -/
def rankTasks (s : SemanticRuntimeMetadata) (ranked : List (Float × Text)) :
    List SemanticTask → SemanticRuntimeMetadata × Option (List (Float × Text))
  | [] => (s, some ranked)
  | task :: tasks =>
    match s.taskStates[task.taskId]? with
    | none => (s, none)
    | some runtime =>
      if runtime.status ≠ .ready ∧ runtime.status ≠ .active then rankTasks s ranked tasks
      else
        let (minimumEffort, seed) := s.rankedWith task
        let gain := taskGain task s.coveredTargetIds.contains
        let basePriority := gain / (1 + minimumEffort)
        let priority := basePriority *
          Float.exp (-failureDecayRho * Float.ofNat runtime.failedAttempts)
        let (activePath, matched) := seedPath task seed
        match activePath[matched]? with
        | none => rankTasks s ranked tasks
        | some guideTargetId =>
          let s := { s with toSchedulerCore := s.setTask task.taskId { runtime with
            priority := priority
            basePriority := basePriority
            gain := gain
            minimumEffort := minimumEffort
            bestSeedId := seed.map SeedProfile.seedId
            activePath := activePath
            guideTargetId := some guideTargetId
            remainingObligations := activePath.drop matched
            prerequisites := task.hazardPrerequisites
            unlockedTargets := task.unlockedTargets } }
          rankTasks s (ranked ++ [(priority, task.taskId)]) tasks

/-- The tasks that are not ranked, by status and name. -/
def inactiveTasks (s : SemanticRuntimeMetadata) (rankedIds : List Text) : List Text :=
  let rank (taskId : Text) :=
    taskStatusRank (((s.taskStates[taskId]?).map TaskRuntimeState.status).getD .unmapped)
  sortBy (fun left right => (compare (rank left) (rank right)).then (compare left right))
    ((s.plan.tasks.map SemanticTask.taskId).filter fun taskId => !rankedIds.contains taskId)

/-- The new ranking: the ranked tasks, then the others. -/
def installRanking (s : SemanticRuntimeMetadata) (rankedIds : List Text) : SemanticRuntimeMetadata :=
  { s with
    ranking := rankedIds ++ s.inactiveTasks rankedIds
    rankingDirty := false }

def rebuildSelection (s : SemanticRuntimeMetadata) :
    SemanticRuntimeMetadata × Option ActiveSelection :=
  let s := { s with rankingStatistics := { s.rankingStatistics with
    rankingCount := saturatingAdd s.rankingStatistics.rankingCount 1
    fullRebuildCount := saturatingAdd s.rankingStatistics.fullRebuildCount 1 } }.refreshStates
  match s.rankTasks [] s.plan.tasks with
  | (s, none) => (s, none)
  | (s, some ranked) =>
    let ranked := sortBy (fun left right =>
      (totalCmp right.1 left.1).then (compare left.2 right.2)) ranked
    let s := s.installRanking (ranked.map Prod.snd)
    match ranked with
    | [] => (s, none)
    | (_, taskId) :: _ => s.activateTask taskId 0

def selectableTaskIds (s : SemanticRuntimeMetadata) : SemanticRuntimeMetadata × List Text :=
  let s := if s.rankingDirty then s.rebuildSelection.1 else s
  (s, s.ranking.filter fun taskId => (s.taskStates[taskId]?).any fun runtime =>
    runtime.status = .ready ∨ runtime.status = .active)

end SemanticRuntimeMetadata

/-! ## Runs -/

/-- The operations of the scheduler. -/
inductive Op where
  | cacheSeedProfile (profile : SeedProfile)
  | invalidateSeed (seedId : ℕ)
  | setTargetNames (names : List Text)
  | recordIndexedExecution (hits ordered : List ℕ) (orderedTraceComplete : Bool)
  | tickSelection
  | suspendSelection
  | refreshStates
  | selectableTaskIds
  | activateTaskWithSeedMode (taskId : Text) (seedRank : ℕ) (broadenSeed : Bool)
  | recordBudgetFailure (taskId identity : Text)

def step (s : SemanticRuntimeMetadata) : Op → SemanticRuntimeMetadata
  | .cacheSeedProfile profile => (s.cacheSeedProfile profile).1
  | .invalidateSeed seedId => s.invalidateSeed seedId
  | .setTargetNames names => s.setTargetNames names
  | .recordIndexedExecution hits ordered complete => (s.recordIndexedExecution hits ordered complete).1
  | .tickSelection => s.tickSelection
  | .suspendSelection => s.suspendSelection
  | .refreshStates => s.refreshStates
  | .selectableTaskIds => s.selectableTaskIds.1
  | .activateTaskWithSeedMode taskId seedRank broadenSeed =>
    (s.activateTaskWithSeedMode taskId seedRank broadenSeed).1
  | .recordBudgetFailure taskId identity => s.recordBudgetFailure taskId identity

/-- The metadata after the given operations. -/
def run (plan : SemanticTaskPlan) (mappedTargets : List Text) (ops : List Op) :
    SemanticRuntimeMetadata :=
  ops.foldl step (.new plan mappedTargets)

end SemantiST.Semantic
