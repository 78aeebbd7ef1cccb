import SemantiST.Semantic.Transitions

/-!
# The selection

The fields that say what is selected agree with each other and with the task states in every state
the scheduler reaches.
-/

namespace SemantiST.Semantic

open Lib

/-- The selection is consistent. -/
structure SelectionInv (c : SchedulerCore) : Prop where
  /-- An Active task is the one that is named. -/
  named : ∀ (id : Text) (r : TaskRuntimeState), c.taskStates[id]? = some r → r.status = .active →
    c.activeTaskId = some id
  /-- The guide is the entry of the path at the guide index. -/
  guide : ∀ id, c.activeTaskId = some id → ∃ index target, c.activeGuideIndex = some index ∧
    c.guideTargetId = some target ∧ c.activePath[index]? = some target
  indices : c.activePathIndices = c.indexPath c.activePath
  /-- Nothing is left of a selection that has ended. -/
  cleared : c.activeTaskId = none → c.toSelectionFields = {}

variable {c c' : SchedulerCore}

/-- No two tasks are Active. -/
theorem SelectionInv.unique (h : SelectionInv c) {id id' : Text} {r r' : TaskRuntimeState}
    (hr : c.taskStates[id]? = some r) (hr' : c.taskStates[id']? = some r') (ha : r.status = .active)
    (ha' : r'.status = .active) : id = id' := by
  have hid := h.named id r hr ha
  have hid' := h.named id' r' hr' ha'
  rw [hid, Option.some.injEq] at hid'
  exact hid'

/-! ## What keeps a selection consistent -/

/-- Changing tasks without making one Active. -/
theorem SelectionInv.setTask (h : SelectionInv c) {id : Text} {r r' : TaskRuntimeState}
    (hr : c.taskStates[id]? = some r) (hactive : r'.status = .active → r.status = .active) :
    SelectionInv (c.setTask id r') where
  named id' s hs ha := by
    rw [SchedulerCore.setTask_taskStates] at hs
    split at hs
    · rename_i hid
      subst hid
      obtain rfl := Option.some.inj hs
      exact h.named id r hr (hactive ha)
    · exact h.named id' s hs ha
  guide := h.guide
  indices := h.indices
  cleared := h.cleared

theorem SelectionInv.suspendSelection (h : SelectionInv c) : SelectionInv c.suspendSelection := by
  have hfields := c.suspendSelection_fields
  have hnone : c.suspendSelection.activeTaskId = none := by rw [hfields]
  refine ⟨fun id r hr ha => ?_, fun id hid => ?_, ?_, fun _ => hfields⟩
  · exfalso
    rw [SchedulerCore.suspendSelection_taskStates] at hr
    split at hr
    · obtain ⟨r', -, rfl⟩ := Option.map_eq_some_iff.1 hr
      rw [TaskRuntimeState.deactivated_status] at ha
      split at ha
      · cases ha
      · contradiction
    · rename_i hother
      exact hother (h.named id r hr ha)
  · rw [hnone] at hid
    cases hid
  · rw [hfields]
    rfl

/-- Refreshing makes no task Active. -/
theorem Refreshed.active {task : SemanticTask} {r r' : TaskRuntimeState} (h : Refreshed c task r r')
    (ha : r'.status = .active) : r.status = .active := by
  cases h with
  | keep => exact ha
  | block => cases ha
  | cover => cases ha
  | reactivate => cases ha
  | ready => cases ha

theorem SelectionInv.activateGuide (h : SelectionInv c) {task : SemanticTask}
    {activePath : List Text} {matched : ℕ} {guideTargetId : Text} (bestSeedId : Option ℕ)
    (priority : Float) (hguide : activePath[matched]? = some guideTargetId) :
    SelectionInv (c.activateGuide task activePath matched guideTargetId bestSeedId priority) where
  named id r hr ha := by
    rw [SchedulerCore.activateGuide_taskStates] at hr
    split at hr
    · rename_i hid
      exact congrArg some hid
    · exfalso
      split at hr
      · obtain ⟨r', -, rfl⟩ := Option.map_eq_some_iff.1 hr
        rw [TaskRuntimeState.deactivated_status] at ha
        split at ha
        · cases ha
        · contradiction
      · rename_i hother
        exact hother (h.named id r hr ha)
  guide _ _ := ⟨matched, guideTargetId, rfl, rfl, hguide⟩
  indices := rfl
  cleared hnone := nomatch hnone

theorem SelectionInv.transition (h : SelectionInv c) (ht : Transition c c') : SelectionInv c' := by
  cases ht with
  | refreshTask hmem hr => exact h.setTask hr (refreshTask_refreshed c _ _).active
  | note hr hnoted => exact h.setTask hr fun ha => hnoted.status ▸ ha
  | suspend => exact h.suspendSelection
  | activate bestSeedId priority hr hstatus hguide =>
    exact h.activateGuide bestSeedId priority hguide
  | succeed hid =>
    refine ⟨h.named, h.guide, h.indices, fun hnone => ?_⟩
    rw [hid] at hnone
    cases hnone
  | dropSelection =>
    refine ⟨h.named, h.guide, h.indices, fun hnone => ?_⟩
    have hcleared := h.cleared hnone
    simp only [hcleared]
  | cover hgrow => exact ⟨h.named, h.guide, h.indices, h.cleared⟩
  | advanceCoverage hgrow hnew => exact ⟨h.named, h.guide, h.indices, h.cleared⟩
  | advanceSelection => exact ⟨h.named, h.guide, h.indices, h.cleared⟩
  | advanceCorpus => exact ⟨h.named, h.guide, h.indices, h.cleared⟩
  | names indices =>
    refine ⟨h.named, h.guide, rfl, fun hnone => ?_⟩
    have hcleared := h.cleared hnone
    simp only [hcleared, List.map_nil]

theorem SelectionInv.failure (h : SelectionInv c) {id : Text} (hf : Failure c id c') :
    SelectionInv c' := by
  cases hf with
  | fail hr hstatus =>
    unfold SchedulerCore.recordFailure
    simp only
    split
    · have hdefer : ∀ r' : TaskRuntimeState, r'.status = .deferred → SelectionInv (c.setTask id r') := by
        intro r' hr'
        refine h.setTask hr fun ha => ?_
        rw [hr'] at ha
        cases ha
      split
      · exact (hdefer _ rfl).suspendSelection
      · exact hdefer _ rfl
    · exact h.setTask hr fun ha => ha

theorem SelectionInv.transitions (h : SelectionInv c) (ht : Transitions c c') : SelectionInv c' := by
  induction ht with
  | refl => exact h
  | tail _ ht ih => exact ih.transition ht

/-! ## Runs -/

theorem selectionInv_new (plan : SemanticTaskPlan) (mappedTargets : List Text) :
    SelectionInv (SemanticRuntimeMetadata.new plan mappedTargets).toSchedulerCore where
  named id r hr ha := by
    obtain ⟨task, -, -, rfl⟩ := SemanticRuntimeMetadata.new_taskStates hr
    exact absurd ha (SemanticRuntimeMetadata.initialStatus_ne_active mappedTargets task)
  guide id hid := nomatch hid
  indices := rfl
  cleared _ := rfl

theorem step_selectionInv {s : SemanticRuntimeMetadata} (h : SelectionInv s.toSchedulerCore)
    (op : Op) : SelectionInv (step s op).toSchedulerCore := by
  rcases step_cases s op with ht | ⟨id, hf⟩
  · exact h.transitions ht
  · exact h.failure hf

/-- **The selection state machine.**  After any operations of the scheduler, with any arguments,
the selection is consistent and no two tasks are Active. -/
theorem run_selection (plan : SemanticTaskPlan) (mappedTargets : List Text) (ops : List Op) :
    SelectionInv (run plan mappedTargets ops).toSchedulerCore ∧
    ∀ (id id' : Text) (r r' : TaskRuntimeState),
      (run plan mappedTargets ops).taskStates[id]? = some r →
      (run plan mappedTargets ops).taskStates[id']? = some r' →
      r.status = .active → r'.status = .active → id = id' := by
  have h : SelectionInv (run plan mappedTargets ops).toSchedulerCore :=
    List.foldlRecOn (motive := fun s : SemanticRuntimeMetadata => SelectionInv s.toSchedulerCore)
      ops step (selectionInv_new plan mappedTargets) fun s hs op _ => step_selectionInv hs op
  exact ⟨h, fun id id' r r' hr hr' ha ha' => h.unique hr hr' ha ha'⟩

end SemantiST.Semantic
