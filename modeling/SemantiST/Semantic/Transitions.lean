import Mathlib.Logic.Relation
import SemantiST.Lib.Map
import SemantiST.Semantic.Runtime

/-!
# What the operations do

Each operation of the metadata is a sequence of transitions of its core, or one failure of a task
that is Ready or Active.  What holds of every transition and every failure holds of every run.
-/

namespace SemantiST.Semantic

open Lib Relation

/-! ## Transitions -/

/-- The task has the same status and the same record of its deferral, no more failures and no
shorter prefixes. -/
structure Noted (r r' : TaskRuntimeState) : Prop where
  status : r'.status = r.status
  failedAttempts : r'.failedAttempts ≤ r.failedAttempts
  deferredAtCoverageEpoch : r'.deferredAtCoverageEpoch = r.deferredAtCoverageEpoch
  deferredAtCorpusEpoch : r'.deferredAtCorpusEpoch = r.deferredAtCorpusEpoch
  retryAfterSelection : r'.retryAfterSelection = r.retryAfterSelection
  bestPrefix : ∀ (path : Text) (n : ℕ), r.bestPrefixByPath[path]? = some n →
    ∃ n', r'.bestPrefixByPath[path]? = some n' ∧ n ≤ n'

/-- One transition of the core, with the conditions under which the operations make it. -/
inductive Transition : SchedulerCore → SchedulerCore → Prop
  | refreshTask {c : SchedulerCore} {task : SemanticTask} {r : TaskRuntimeState}
      (hmem : task ∈ c.plan.tasks) (hr : c.taskStates[task.taskId]? = some r) :
      Transition c (c.setTask task.taskId (c.refreshTask task r).1)
  | note {c : SchedulerCore} {id : Text} {r r' : TaskRuntimeState}
      (hr : c.taskStates[id]? = some r) (h : Noted r r') : Transition c (c.setTask id r')
  | suspend (c : SchedulerCore) : Transition c c.suspendSelection
  | activate {c : SchedulerCore} {task : SemanticTask} {r : TaskRuntimeState}
      {activePath : List Text} {matched : ℕ} {guideTargetId : Text} (bestSeedId : Option ℕ)
      (priority : Float) (hr : c.taskStates[task.taskId]? = some r)
      (hstatus : r.status = .ready ∨ r.status = .active)
      (hguide : activePath[matched]? = some guideTargetId) :
      Transition c (c.activateGuide task activePath matched guideTargetId bestSeedId priority)
  | succeed {c : SchedulerCore} {id : Text} (hid : c.activeTaskId = some id) :
      Transition c { c with activeSelectionSucceeded := true }
  | dropSelection (c : SchedulerCore) : Transition c { c with activeSelection := none }
  | cover {c : SchedulerCore} {names : Std.ExtTreeSet Text compare}
      (hgrow : ∀ name ∈ c.coveredTargetIds, name ∈ names) :
      Transition c { c with coveredTargetIds := names }
  | advanceCoverage {c : SchedulerCore} {names : Std.ExtTreeSet Text compare}
      (hgrow : ∀ name ∈ c.coveredTargetIds, name ∈ names)
      (hnew : ∃ name ∈ names, name ∉ c.coveredTargetIds) :
      Transition c { c with
        coveredTargetIds := names
        coverageEpoch := saturatingAdd c.coverageEpoch 1 }
  | advanceSelection (c : SchedulerCore) :
      Transition c { c with selectionEpoch := saturatingAdd c.selectionEpoch 1 }
  | advanceCorpus (c : SchedulerCore) :
      Transition c { c with corpusEpoch := saturatingAdd c.corpusEpoch 1 }
  | names {c : SchedulerCore} (indices : Std.ExtTreeMap Text ℕ compare) :
      Transition c { c with
        targetIndices := indices
        activePathIndices := c.activePath.map fun targetId => indices[targetId]? }

/-- A failure of a task that is Ready or Active. -/
inductive Failure : SchedulerCore → Text → SchedulerCore → Prop
  | fail {c : SchedulerCore} {id : Text} {r : TaskRuntimeState} (hr : c.taskStates[id]? = some r)
      (hstatus : r.status = .ready ∨ r.status = .active) : Failure c id (c.recordFailure id r)

/-- Any number of transitions. -/
abbrev Transitions : SchedulerCore → SchedulerCore → Prop := ReflTransGen Transition

/-! ## Refreshing a task -/

/-- New coverage or a new corpus epoch since the task was deferred, or its retry epoch. -/
def RetryDue (c : SchedulerCore) (r : TaskRuntimeState) : Prop :=
  r.deferredAtCoverageEpoch.getD c.coverageEpoch < c.coverageEpoch ∨
    r.deferredAtCorpusEpoch < c.corpusEpoch ∨ r.retryAfterSelection ≤ c.selectionEpoch

/-- What `refresh_states` makes of a task state. -/
inductive Refreshed (c : SchedulerCore) (task : SemanticTask) (r : TaskRuntimeState) :
    TaskRuntimeState → Prop
  | keep (hstatus : r.status = .unmapped ∨ r.status = .active ∨ r.status = .deferred) :
      Refreshed c task r r
  | block (hstatus : r.status ≠ .unmapped) (hpath : taskHasExecutablePath task = false) :
      Refreshed c task r { r with status := .blocked }
  | cover (hstatus : r.status ≠ .unmapped) (hpath : taskHasExecutablePath task = true)
      (hcovered : task.terminalTargetId ∈ c.coveredTargetIds) :
      Refreshed c task r { r with status := .covered }
  | reactivate (hstatus : r.status = .deferred) (hpath : taskHasExecutablePath task = true)
      (hdue : RetryDue c r) :
      Refreshed c task r { r with
        status := .ready
        deferredAtCoverageEpoch := none
        failedAttempts := min r.failedAttempts (deferAfterFailures - 1) }
  | ready (hstatus : r.status ≠ .unmapped ∧ r.status ≠ .deferred)
      (hpath : taskHasExecutablePath task = true)
      (hcovered : task.terminalTargetId ∉ c.coveredTargetIds) :
      Refreshed c task r { r with status := .ready }

theorem refreshTask_refreshed (c : SchedulerCore) (task : SemanticTask) (r : TaskRuntimeState) :
    Refreshed c task r (c.refreshTask task r).1 := by
  unfold SchedulerCore.refreshTask
  split
  · rename_i h
    exact .keep (.inl h)
  · rename_i hmapped
    split
    · rename_i h
      exact .block hmapped (by simpa using h)
    · rename_i hpath
      have hpath : taskHasExecutablePath task = true := by simpa using hpath
      split
      · rename_i h
        exact .cover hmapped hpath (Std.ExtTreeSet.mem_iff_contains.2 h)
      · rename_i hcovered
        split
        · rename_i hdeferred
          split
          · rename_i hdue
            exact .reactivate hdeferred hpath hdue
          · exact .keep (.inr (.inr hdeferred))
        · rename_i hdeferred
          split
          · exact .ready ⟨hmapped, hdeferred⟩ hpath fun h =>
              hcovered (Std.ExtTreeSet.mem_iff_contains.1 h)
          · rename_i hactive
            exact .keep (.inr (.inl (not_not.1 hactive)))

/-! ## Task states after a transition -/

namespace TaskRuntimeState

/-- What `deactivate` makes of a task state. -/
def deactivated (r : TaskRuntimeState) : TaskRuntimeState :=
  if r.status = .active then { r with status := .ready } else r

theorem deactivated_status (r : TaskRuntimeState) :
    r.deactivated.status = if r.status = .active then .ready else r.status := by
  unfold deactivated
  split <;> rfl

end TaskRuntimeState

namespace SchedulerCore

variable (c : SchedulerCore)

theorem setTask_taskStates (id id' : Text) (r : TaskRuntimeState) :
    (c.setTask id r).taskStates[id']? = if id = id' then some r else c.taskStates[id']? :=
  getElem?_insert_eq

theorem deactivate_taskStates (id id' : Text) : (c.deactivate id).taskStates[id']? =
    if id = id' then c.taskStates[id']?.map TaskRuntimeState.deactivated
    else c.taskStates[id']? := by
  unfold deactivate
  split
  · rename_i r hr
    by_cases hid : id = id'
    · subst hid
      rw [if_pos rfl, hr]
      split
      · rename_i hactive
        simp [setTask_taskStates, TaskRuntimeState.deactivated, hactive]
      · rename_i hactive
        simp [hr, TaskRuntimeState.deactivated, hactive]
    · rw [if_neg hid]
      split
      · rw [setTask_taskStates, if_neg hid]
      · rfl
  · rename_i hnone
    split
    · rename_i hid
      subst hid
      rw [hnone]
      rfl
    · rfl

/-- Suspending clears every selection field. -/
theorem suspendSelection_fields : c.suspendSelection.toSelectionFields = {} := by
  unfold suspendSelection
  cases hactive : c.activeTaskId with
  | none => simp [hactive]
  | some previous => rfl

theorem suspendSelection_taskStates (id : Text) : c.suspendSelection.taskStates[id]? =
    if c.activeTaskId = some id then c.taskStates[id]?.map TaskRuntimeState.deactivated
    else c.taskStates[id]? := by
  unfold suspendSelection
  cases hactive : c.activeTaskId with
  | none => simp
  | some previous =>
    simp only [Option.some.injEq]
    exact c.deactivate_taskStates previous id

theorem release_taskStates (id id' : Text) : (c.release id).taskStates[id']? =
    if c.activeTaskId = some id' ∧ id ≠ id' then
      c.taskStates[id']?.map TaskRuntimeState.deactivated
    else c.taskStates[id']? := by
  unfold release
  cases hactive : c.activeTaskId with
  | none => simp
  | some previous =>
    simp only [Option.some.injEq]
    by_cases hprev : previous = id'
    · subst hprev
      by_cases hid : previous = id
      · subst hid
        simp
      · simp [hid, Ne.symm hid, deactivate_taskStates]
    · by_cases hid : previous = id
      · simp [hid]
      · simp [hid, hprev, deactivate_taskStates]

section Activate

variable (task : SemanticTask) (activePath : List Text) (matched : ℕ) (guideTargetId : Text)
  (bestSeedId : Option ℕ) (priority : Float)

/-- The activated task is Active and what was active before is not. -/
theorem activateGuide_taskStates (id : Text) :
    (c.activateGuide task activePath matched guideTargetId bestSeedId priority).taskStates[id]? =
      if task.taskId = id then c.taskStates[id]?.map fun r => { r with
        status := .active
        lastGuideTargetId := some guideTargetId
        bestSeedId := bestSeedId
        activePath := activePath
        guideTargetId := some guideTargetId
        remainingObligations := activePath.drop matched }
      else if c.activeTaskId = some id then c.taskStates[id]?.map TaskRuntimeState.deactivated
      else c.taskStates[id]? := by
  unfold activateGuide
  have hown : (c.release task.taskId).taskStates[task.taskId]? = c.taskStates[task.taskId]? := by
    simp [release_taskStates]
  cases hr : c.taskStates[task.taskId]? with
  | none =>
    simp only [hown, hr]
    by_cases hid : task.taskId = id
    · subst hid
      simp [hown, hr]
    · simp [release_taskStates, hid]
  | some r =>
    simp only [hown, hr, setTask_taskStates]
    by_cases hid : task.taskId = id
    · subst hid
      simp [hr]
    · simp [release_taskStates, hid]

end Activate

end SchedulerCore

namespace SemanticRuntimeMetadata

variable {s : SemanticRuntimeMetadata}

@[simp] theorem suspendSelection_core (s : SemanticRuntimeMetadata) :
    s.suspendSelection.toSchedulerCore = s.toSchedulerCore.suspendSelection := rfl

/-! ## The start -/

theorem initialStatus_ne_active (mappedTargets : List Text) (task : SemanticTask) :
    initialStatus mappedTargets task ≠ .active := by
  unfold initialStatus
  split
  · exact TaskStatus.noConfusion
  · split <;> exact TaskStatus.noConfusion

/-- At the start every task state is that of a task of the plan. -/
theorem new_taskStates {plan : SemanticTaskPlan} {mappedTargets : List Text} {id : Text}
    {r : TaskRuntimeState} (h : (new plan mappedTargets).taskStates[id]? = some r) :
    ∃ task ∈ plan.tasks, task.taskId = id ∧ r = { status := initialStatus mappedTargets task } := by
  have hall : ∀ (id : Text) (r : TaskRuntimeState), (new plan mappedTargets).taskStates[id]? = some r →
      ∃ task ∈ plan.tasks, task.taskId = id ∧ r = { status := initialStatus mappedTargets task } := by
    refine List.foldlRecOn (motive := fun states => ∀ (id : Text) (r : TaskRuntimeState),
      states[id]? = some r → ∃ task ∈ plan.tasks, task.taskId = id ∧
        r = { status := initialStatus mappedTargets task }) plan.tasks _ ?_ ?_
    · intro id r hr
      simp at hr
    · intro states ih task hmem id r hr
      rw [getElem?_insert_eq] at hr
      split at hr
      · rename_i hid
        exact ⟨task, hmem, hid, (Option.some.inj hr).symm⟩
      · exact ih id r hr
  exact hall id r h

/-! ## The operations -/

theorem Noted.refl (r : TaskRuntimeState) : Noted r r :=
  ⟨rfl, le_rfl, rfl, rfl, rfl, fun _ n h => ⟨n, h, le_rfl⟩⟩

theorem foldl_refreshStep_transitions (s : SemanticRuntimeMetadata) {tasks : List SemanticTask}
    (hmem : ∀ task ∈ tasks, task ∈ s.plan.tasks)
    (acc : Std.ExtTreeMap Text TaskRuntimeState compare × Bool) :
    Transitions { s.toSchedulerCore with taskStates := acc.1 }
      { s.toSchedulerCore with taskStates := (tasks.foldl s.refreshStep acc).1 } := by
  induction tasks generalizing acc with
  | nil => exact .refl
  | cons task tasks ih =>
    have hrest := ih (fun task' h => hmem task' (List.mem_cons_of_mem _ h)) (s.refreshStep acc task)
    refine .trans ?_ hrest
    unfold refreshStep
    cases hr : acc.1[task.taskId]? with
    | none => exact .refl
    | some r =>
      refine .single ?_
      exact Transition.refreshTask (c := { s.toSchedulerCore with taskStates := acc.1 })
        (hmem task List.mem_cons_self) hr

theorem refreshStates_transitions (s : SemanticRuntimeMetadata) :
    Transitions s.toSchedulerCore s.refreshStates.toSchedulerCore := by
  have h := s.foldl_refreshStep_transitions (fun _ h => h) (s.taskStates, false)
  unfold refreshStates
  generalize s.plan.tasks.foldl s.refreshStep (s.taskStates, false) = acc at h ⊢
  rcases acc with ⟨states, reactivated⟩
  cases reactivated with
  | true => exact h
  | false => exact h

theorem tickSelection_transitions (s : SemanticRuntimeMetadata) :
    Transitions s.toSchedulerCore s.tickSelection.toSchedulerCore := by
  have hadvance : Transitions s.toSchedulerCore _ := .single (.advanceSelection s.toSchedulerCore)
  have hrefresh := refreshStates_transitions
    { s with selectionEpoch := saturatingAdd s.selectionEpoch 1 }
  unfold tickSelection
  simp only
  split
  · exact hadvance.trans hrefresh
  · exact hadvance

theorem cacheSeedProfile_transitions (s : SemanticRuntimeMetadata) (profile : SeedProfile) :
    Transitions s.toSchedulerCore (s.cacheSeedProfile profile).1.toSchedulerCore := by
  have hstore : Transitions s.toSchedulerCore (s.storeProfile profile).toSchedulerCore := by
    unfold storeProfile
    split
    · exact .refl
    · exact .single (.advanceCorpus _)
  unfold cacheSeedProfile
  simp only
  split
  · exact .refl
  · split
    · exact hstore
    · split
      · exact hstore
      · exact hstore

theorem invalidateSeed_transitions (s : SemanticRuntimeMetadata) (seedId : ℕ) :
    Transitions s.toSchedulerCore (s.invalidateSeed seedId).toSchedulerCore := by
  unfold invalidateSeed
  split
  · exact .refl
  · simp only
    split
    · exact .single (.dropSelection s.toSchedulerCore)
    · exact .refl

theorem recordSuccess_transitions {id : Text} {r : TaskRuntimeState} (identity : Text)
    (hr : s.taskStates[id]? = some r) :
    Transitions s.toSchedulerCore (s.recordSuccess id identity r).toSchedulerCore := by
  unfold recordSuccess
  simp only
  let succeeded := { r with
    attempts := saturatingAdd r.attempts 1
    failedAttempts := 0
    guideSuccesses := r.guideSuccesses.insert identity
      (saturatingAdd ((r.guideSuccesses[identity]?).getD 0) 1) }
  have h : Transitions s.toSchedulerCore (s.toSchedulerCore.setTask id succeeded) :=
    .single (.note hr { Noted.refl r with failedAttempts := Nat.zero_le _ })
  split
  · exact h
  · exact h

theorem recordAssignedAttempt_transitions (s : SemanticRuntimeMetadata) (id identity : Text)
    (seedId : Option ℕ) : Transitions s.toSchedulerCore
      (s.recordAssignedAttempt id identity true seedId).toSchedulerCore := by
  unfold recordAssignedAttempt
  split
  · exact .refl
  · simp only
    split
    · exact .refl
    · rename_i hr
      exact recordSuccess_transitions identity hr

theorem recordAttempt_transitions (s : SemanticRuntimeMetadata) (seedId : Option ℕ) :
    Transitions s.toSchedulerCore (s.recordAttempt true seedId).toSchedulerCore := by
  unfold recordAttempt
  split
  · rename_i id guideTargetId hid hguide
    split
    · exact .refl
    · simp only [if_true]
      have hsucceed : Transitions s.toSchedulerCore _ := .single (.succeed hid)
      have hrecord := recordAssignedAttempt_transitions { s with activeSelectionSucceeded := true } id
        (guideIdentity (s.activePathKey.getD "unassigned".toList) (s.activeGuideIndex.getD 0)
          guideTargetId) seedId
      exact hsucceed.trans hrecord
  · exact .refl

theorem improvePrefix_transitions (s : SemanticRuntimeMetadata) (id : Text) (matched : ℕ) :
    Transitions s.toSchedulerCore (s.improvePrefix id matched).1.toSchedulerCore := by
  unfold improvePrefix
  split
  · rename_i r pathKey hr hkey
    have hnote (hbest : ∀ best, r.bestPrefixByPath[pathKey]? = some best → best < matched) :
        Noted r { r with bestPrefixByPath := r.bestPrefixByPath.insert pathKey matched } := by
      refine { Noted.refl r with bestPrefix := fun path n hn => ?_ }
      simp only [getElem?_insert_eq]
      split
      · rename_i heq
        subst heq
        exact ⟨matched, rfl, (hbest n hn).le⟩
      · exact ⟨n, hn, le_rfl⟩
    cases hbest : r.bestPrefixByPath[pathKey]? with
    | some best =>
      by_cases hlt : best < matched
      · simp only [hlt, decide_true, if_true]
        exact .single (.note hr (hnote fun best' h => by
          rw [hbest, Option.some.injEq] at h
          rwa [← h]))
      · simp only [hlt, decide_false, Bool.false_eq_true, if_false]
        exact .refl
    | none =>
      by_cases hlt : 0 < matched
      · simp only [hlt, decide_true, if_true]
        exact .single (.note hr (hnote fun best' h => by
          rw [hbest] at h
          cases h))
      · simp only [hlt, decide_false, Bool.false_eq_true, if_false]
        exact .refl
  · exact .refl

/-- What the hits of an execution do to the core: they cover targets, and the flag says whether one
of them is new. -/
structure Covering (s s' : SemanticRuntimeMetadata) (advanced : Bool) : Prop where
  core : s'.toSchedulerCore =
    { s.toSchedulerCore with coveredTargetIds := s'.coveredTargetIds }
  grow : ∀ name ∈ s.coveredTargetIds, name ∈ s'.coveredTargetIds
  new : advanced = true → ∃ name ∈ s'.coveredTargetIds, name ∉ s.coveredTargetIds

theorem Covering.coverIndex {acc : SemanticRuntimeMetadata × Bool} (h : Covering s acc.1 acc.2)
    (index : ℕ) : Covering s (coverIndex acc index).1 (coverIndex acc index).2 := by
  rcases acc with ⟨s', advanced⟩
  unfold SemanticRuntimeMetadata.coverIndex
  simp only
  split
  · exact h
  · rename_i name hname
    split
    · exact ⟨h.core, h.grow, h.new⟩
    · refine ⟨?_, fun name' hn => Std.ExtTreeSet.mem_insert.2 (.inr (h.grow name' hn)), fun hadv => ?_⟩
      · have hcore := h.core
        simp only at hcore ⊢
        rw [hcore]
      · rcases Bool.or_eq_true_iff.1 hadv with hadv | hadv
        · obtain ⟨name', hmem, hnot⟩ := h.new hadv
          exact ⟨name', Std.ExtTreeSet.mem_insert.2 (.inr hmem), hnot⟩
        · have hnot : name ∉ s'.coveredTargetIds := fun hn => by
            simp [Std.ExtTreeSet.contains_iff_mem.2 hn] at hadv
          exact ⟨name, Std.ExtTreeSet.mem_insert_self, fun hn => hnot (h.grow name hn)⟩

theorem foldl_coverIndex_covering (s : SemanticRuntimeMetadata) (hits : List ℕ) :
    Covering s (hits.foldl coverIndex (s, false)).1 (hits.foldl coverIndex (s, false)).2 := by
  refine List.foldlRecOn (motive := fun acc => Covering s acc.1 acc.2) hits coverIndex ?_
    fun acc h index _ => h.coverIndex index
  exact ⟨rfl, fun _ hn => hn, Bool.noConfusion⟩

theorem coverHits_transitions (s : SemanticRuntimeMetadata) (hits : List ℕ) :
    Transitions s.toSchedulerCore (s.coverHits hits).1.toSchedulerCore := by
  have hcover := s.foldl_coverIndex_covering hits
  unfold coverHits
  generalize hits.foldl coverIndex (s, false) = acc at hcover ⊢
  rcases acc with ⟨s', advanced⟩
  obtain ⟨hcore, hgrow, hnew⟩ := hcover
  simp only at hcore hgrow hnew
  cases advanced with
  | true =>
    refine .trans (.single ?_) (refreshStates_transitions
      { s' with coverageEpoch := saturatingAdd s'.coverageEpoch 1 })
    have hadvance := Transition.advanceCoverage hgrow (hnew rfl)
    have hcoverage : s'.coverageEpoch = s.coverageEpoch := by rw [hcore]
    rw [hcoverage, hcore]
    exact hadvance
  | false =>
    refine .single ?_
    have hcovers := Transition.cover hgrow
    simp only [Bool.false_eq_true, if_false]
    rw [hcore]
    exact hcovers

theorem recordOrdered_transitions (s : SemanticRuntimeMetadata) (ordered : List ℕ) :
    Transitions s.toSchedulerCore (s.recordOrdered ordered).1.toSchedulerCore := by
  unfold recordOrdered
  split
  · rename_i taskId htask
    simp only
    split
    · exact (improvePrefix_transitions s taskId _).trans (recordAttempt_transitions _ _)
    · exact improvePrefix_transitions s taskId _
  · exact .refl

theorem recordIndexedExecution_transitions (s : SemanticRuntimeMetadata) (hits ordered : List ℕ)
    (complete : Bool) : Transitions s.toSchedulerCore
      (s.recordIndexedExecution hits ordered complete).1.toSchedulerCore := by
  have h := (s.coverHits_transitions hits).trans (recordOrdered_transitions _ ordered)
  unfold recordIndexedExecution
  simp only
  split
  · exact h
  · exact h

theorem rankTasks_transitions (s : SemanticRuntimeMetadata) (ranked : List (Float × Text))
    (tasks : List SemanticTask) :
    Transitions s.toSchedulerCore (s.rankTasks ranked tasks).1.toSchedulerCore := by
  induction tasks generalizing s ranked with
  | nil => exact .refl
  | cons task tasks ih =>
    unfold rankTasks
    split
    · exact .refl
    · rename_i r hr
      split
      · exact ih s ranked
      · simp only
        split
        · exact ih s ranked
        · refine .trans ?_ (ih _ _)
          exact .single (.note hr ⟨rfl, le_rfl, rfl, rfl, rfl, fun _ n hn => ⟨n, hn, le_rfl⟩⟩)

theorem activateTaskWithSeedMode_transitions (s : SemanticRuntimeMetadata) (id : Text)
    (seedRank : ℕ) (broadenSeed : Bool) : Transitions s.toSchedulerCore
      (s.activateTaskWithSeedMode id seedRank broadenSeed).1.toSchedulerCore := by
  unfold activateTaskWithSeedMode
  split
  · rename_i r task hr htask
    obtain rfl : task.taskId = id := by simpa using List.find?_some htask
    split
    · exact .refl
    · rename_i hstatus
      simp only
      split
      · exact .refl
      · rename_i guideTargetId hguide
        refine .single (.activate _ _ hr ?_ hguide)
        tauto
  · exact .refl

theorem rebuildSelection_transitions (s : SemanticRuntimeMetadata) :
    Transitions s.toSchedulerCore s.rebuildSelection.1.toSchedulerCore := by
  set s₁ : SemanticRuntimeMetadata := { s with rankingStatistics := { s.rankingStatistics with
    rankingCount := saturatingAdd s.rankingStatistics.rankingCount 1
    fullRebuildCount := saturatingAdd s.rankingStatistics.fullRebuildCount 1 } }.refreshStates with hs₁
  have hrefresh : Transitions s.toSchedulerCore s₁.toSchedulerCore :=
    refreshStates_transitions { s with rankingStatistics := { s.rankingStatistics with
      rankingCount := saturatingAdd s.rankingStatistics.rankingCount 1
      fullRebuildCount := saturatingAdd s.rankingStatistics.fullRebuildCount 1 } }
  have hrank := hrefresh.trans (s₁.rankTasks_transitions [] s₁.plan.tasks)
  unfold rebuildSelection
  simp only [← hs₁]
  generalize s₁.rankTasks [] s₁.plan.tasks = result at hrank ⊢
  rcases result with ⟨s₂, _ | ranked⟩
  · exact hrank
  · simp only
    split
    · exact hrank
    · exact hrank.trans (activateTaskWithSeedMode_transitions (s₂.installRanking _) _ 0 false)

theorem selectableTaskIds_transitions (s : SemanticRuntimeMetadata) :
    Transitions s.toSchedulerCore s.selectableTaskIds.1.toSchedulerCore := by
  unfold selectableTaskIds
  simp only
  split
  · exact rebuildSelection_transitions s
  · exact .refl

theorem recordFailure_core (s : SemanticRuntimeMetadata) (id : Text) (r : TaskRuntimeState) :
    (s.recordFailure id r).toSchedulerCore = s.toSchedulerCore.recordFailure id r := by
  unfold recordFailure
  simp only
  split
  · rfl
  · rfl

theorem recordBudgetFailure_cases (s : SemanticRuntimeMetadata) (id identity : Text) :
    Transitions s.toSchedulerCore (s.recordBudgetFailure id identity).toSchedulerCore ∨
    Failure s.toSchedulerCore id (s.recordBudgetFailure id identity).toSchedulerCore := by
  unfold recordBudgetFailure
  split
  · rename_i hany
    obtain ⟨r, hr, hstatus⟩ := (Option.any_eq_true _ _).1 hany
    unfold recordAssignedAttempt
    split
    · exact .inl .refl
    · right
      have hr' : s.taskStates[id]? = some r := hr
      simp only [pushAttempt, hr', Bool.false_eq_true, if_false, recordFailure_core]
      exact .fail hr (of_decide_eq_true hstatus)
  · exact .inl .refl

end SemanticRuntimeMetadata

/-- **What a step does**: transitions, or a failure of a task that is Ready or Active. -/
theorem step_cases (s : SemanticRuntimeMetadata) (op : Op) :
    Transitions s.toSchedulerCore (step s op).toSchedulerCore ∨
    ∃ id, Failure s.toSchedulerCore id (step s op).toSchedulerCore := by
  cases op with
  | cacheSeedProfile profile => exact .inl (s.cacheSeedProfile_transitions profile)
  | invalidateSeed seedId => exact .inl (s.invalidateSeed_transitions seedId)
  | setTargetNames names => exact .inl (.single (.names _))
  | recordIndexedExecution hits ordered complete =>
    exact .inl (s.recordIndexedExecution_transitions hits ordered complete)
  | tickSelection => exact .inl s.tickSelection_transitions
  | suspendSelection => exact .inl (.single (.suspend _))
  | refreshStates => exact .inl s.refreshStates_transitions
  | selectableTaskIds => exact .inl s.selectableTaskIds_transitions
  | activateTaskWithSeedMode taskId seedRank broadenSeed =>
    exact .inl (s.activateTaskWithSeedMode_transitions taskId seedRank broadenSeed)
  | recordBudgetFailure taskId identity => 
    exact (s.recordBudgetFailure_cases taskId identity).imp_right fun h => ⟨taskId, h⟩

end SemantiST.Semantic
