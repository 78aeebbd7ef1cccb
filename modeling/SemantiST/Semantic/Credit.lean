import SemantiST.Semantic.Selection

/-!
# Credit for a guide

An attempt is recorded as covered, and a success of a guide is counted, only for the guide that is
selected while one execution shows the path up to it; a selection is credited once.
-/

namespace SemantiST.Semantic

open Lib

/-! ## Guides -/

/-- The guide of a selection, with the path it lies on. -/
structure Guide where
  taskId : Text
  pathKey : Text
  index : ℕ
  target : Text
  path : List Text

/-- The active guide (`active_guide_budget_key`). -/
def SelectionFields.guide (f : SelectionFields) : Option Guide := do
  let taskId ← f.activeTaskId
  let pathKey ← f.activePathKey
  let index ← f.activeGuideIndex
  let target ← f.guideTargetId
  return { taskId, pathKey, index, target, path := f.activePath }

/-- The identity under which the successes of a guide are counted. -/
def Guide.identity (g : Guide) : Text :=
  SemanticRuntimeMetadata.guideIdentity g.pathKey g.index g.target

/-- The attempt is one at the guide. -/
structure AttemptAt (g : Guide) (a : AttemptHistory) : Prop where
  taskId : a.taskId = g.taskId
  target : a.guideTargetId = some g.target
  pathKey : a.pathKey = some g.pathKey
  index : a.guideIndex = some g.index

/-- The guide is that of the selection. -/
structure Guide.Of (g : Guide) (selection : ActiveSelection) : Prop where
  taskId : g.taskId = selection.taskId
  path : g.path = selection.activePath
  index : g.index = selection.guideIndex
  target : g.target = selection.guideTargetId

namespace SemanticRuntimeMetadata

variable {s s' s'' : SemanticRuntimeMetadata}

/-- `guide_success_count`. -/
def guideSuccessCount (s : SemanticRuntimeMetadata) (taskId identity : Text) : ℕ :=
  ((s.taskStates[taskId]?).bind fun runtime => runtime.guideSuccesses[identity]?).getD 0

/-! ## The path that an execution shows -/

section Prefix

variable {α : Type} [DecidableEq α]

theorem orderedPrefixLen_concat (path observed : List α) (a : α) :
    orderedPrefixLen path (observed ++ [a]) =
      if path[orderedPrefixLen path observed]? = some a then orderedPrefixLen path observed + 1
      else orderedPrefixLen path observed := by
  rw [orderedPrefixLen, List.foldl_append]
  rfl

/-- What is counted was observed in the order of the path. -/
theorem take_orderedPrefixLen_sublist (path observed : List α) :
    (path.take (orderedPrefixLen path observed)).Sublist observed := by
  induction observed using List.reverseRecOn with
  | nil => exact List.Sublist.refl _
  | append_singleton observed a ih =>
    rw [orderedPrefixLen_concat]
    split
    · rename_i ha
      obtain ⟨hlt, ha⟩ := List.getElem?_eq_some_iff.1 ha
      rw [List.take_succ_eq_append_getElem hlt, ha]
      exact ih.append (List.Sublist.refl [a])
    · exact ih.trans (List.sublist_append_left observed [a])

end Prefix

/-! ## Recording -/

/-- The history of the second moment is that of the first with one more attempt. -/
def Recorded (s s' : SemanticRuntimeMetadata) (a : AttemptHistory) : Prop :=
  s'.attemptHistory = (s.pushAttempt a).attemptHistory

/-- The history cannot stay the same when an attempt is recorded. -/
theorem not_recorded_self (a : AttemptHistory) (h : s'.attemptHistory = s.attemptHistory) :
    ¬ Recorded s s' a := by
  intro hrec
  have hlen := congrArg List.length (h.symm.trans hrec)
  simp only [pushAttempt] at hlen
  split at hlen
  · rw [List.length_append, List.length_drop, List.length_singleton] at hlen
    omega
  · rw [List.length_append, List.length_singleton] at hlen
    omega

theorem Recorded.unique {a a' : AttemptHistory} (h : Recorded s s' a) (h' : Recorded s s' a') :
    a = a' := by
  have h := h.symm.trans h'
  simp only [pushAttempt] at h
  exact List.singleton_inj.1 (List.append_inj_right' h rfl)

/-! ## Fields of the task states -/

section Field

variable {β : Type} {f : TaskRuntimeState → β} {c c' c'' : SchedulerCore} {id : Text}
  {r r' : TaskRuntimeState}

/-- The field has the same value in every task state. -/
def SameField (f : TaskRuntimeState → β) (c c' : SchedulerCore) : Prop :=
  ∀ id : Text, (c'.taskStates[id]?).map f = (c.taskStates[id]?).map f

/-- The field does not depend on the status, the counters and the best prefixes. -/
def Steady (f : TaskRuntimeState → β) : Prop :=
  ∀ (r : TaskRuntimeState) (status : TaskStatus) (failedAttempts attempts : ℕ)
    (deferredAtCoverageEpoch : Option ℕ) (retryAfterSelection deferredAtCorpusEpoch : ℕ)
    (bestPrefixByPath : Std.ExtTreeMap Text ℕ compare),
    f { r with
      status := status
      failedAttempts := failedAttempts
      attempts := attempts
      deferredAtCoverageEpoch := deferredAtCoverageEpoch
      retryAfterSelection := retryAfterSelection
      deferredAtCorpusEpoch := deferredAtCorpusEpoch
      bestPrefixByPath := bestPrefixByPath } = f r

theorem SameField.refl (f : TaskRuntimeState → β) (c : SchedulerCore) : SameField f c c :=
  fun _ => rfl

theorem SameField.trans (h : SameField f c c') (h' : SameField f c' c'') : SameField f c c'' :=
  fun id => (h' id).trans (h id)

theorem SameField.setTask (hr : c.taskStates[id]? = some r) (h : f r' = f r) :
    SameField f c (c.setTask id r') := fun id' => by
  rw [SchedulerCore.setTask_taskStates]
  split
  · rename_i hid
    rw [← hid, hr]
    exact congrArg some h
  · rfl

theorem Steady.deactivated (hf : Steady f) (r : TaskRuntimeState) : f r.deactivated = f r := by
  unfold TaskRuntimeState.deactivated
  split
  · exact hf r _ _ _ _ _ _ _
  · rfl

theorem Steady.map_deactivated (hf : Steady f) (o : Option TaskRuntimeState) :
    (o.map TaskRuntimeState.deactivated).map f = o.map f := by
  cases o with
  | none => rfl
  | some r => exact congrArg some (hf.deactivated r)

theorem Steady.suspendSelection (hf : Steady f) (c : SchedulerCore) :
    SameField f c c.suspendSelection := fun id => by
  rw [SchedulerCore.suspendSelection_taskStates]
  split
  · exact hf.map_deactivated _
  · rfl

theorem Steady.recordFailure (hf : Steady f) (hr : c.taskStates[id]? = some r) :
    SameField f c (c.recordFailure id r) := by
  unfold SchedulerCore.recordFailure
  simp only
  split
  · split
    · refine .trans ?_ (hf.suspendSelection _)
      exact .setTask hr (hf r _ _ _ _ _ _ _)
    · exact .setTask hr (hf r _ _ _ _ _ _ _)
  · exact .setTask hr (hf r _ _ _ _ _ _ _)

theorem Steady.refreshed (hf : Steady f) {task : SemanticTask} (h : Refreshed c task r r') :
    f r' = f r := by
  cases h with
  | keep => rfl
  | block => exact hf r _ _ _ _ _ _ _
  | cover => exact hf r _ _ _ _ _ _ _
  | reactivate => exact hf r _ _ _ _ _ _ _
  | ready => exact hf r _ _ _ _ _ _ _

theorem Steady.foldl_refreshStep (hf : Steady f) (s : SemanticRuntimeMetadata)
    (tasks : List SemanticTask) (acc : Std.ExtTreeMap Text TaskRuntimeState compare × Bool) :
    SameField f { s.toSchedulerCore with taskStates := acc.1 }
      { s.toSchedulerCore with taskStates := (tasks.foldl s.refreshStep acc).1 } := by
  induction tasks generalizing acc with
  | nil => exact .refl f _
  | cons task tasks ih =>
    refine SameField.trans ?_ (ih (s.refreshStep acc task))
    unfold refreshStep
    cases hr : acc.1[task.taskId]? with
    | none => exact .refl f _
    | some r =>
      exact SameField.setTask (c := { s.toSchedulerCore with taskStates := acc.1 }) hr
        (hf.refreshed (refreshTask_refreshed s.toSchedulerCore task r))

theorem Steady.refreshStates (hf : Steady f) (s : SemanticRuntimeMetadata) :
    SameField f s.toSchedulerCore s.refreshStates.toSchedulerCore := by
  have h := hf.foldl_refreshStep s s.plan.tasks (s.taskStates, false)
  unfold SemanticRuntimeMetadata.refreshStates
  generalize s.plan.tasks.foldl s.refreshStep (s.taskStates, false) = acc at h ⊢
  rcases acc with ⟨states, reactivated⟩
  cases reactivated with
  | true => exact h
  | false => exact h

theorem steady_guideSuccesses : Steady TaskRuntimeState.guideSuccesses :=
  fun _ _ _ _ _ _ _ _ => rfl

theorem steady_bestSeedId : Steady TaskRuntimeState.bestSeedId := fun _ _ _ _ _ _ _ _ => rfl

end Field

/-- The successes of every task are the same. -/
abbrev SameSuccesses (c c' : SchedulerCore) : Prop := SameField TaskRuntimeState.guideSuccesses c c'

theorem sameSuccesses_activateGuide (c : SchedulerCore) (task : SemanticTask)
    (activePath : List Text) (matched : ℕ) (guideTargetId : Text) (bestSeedId : Option ℕ)
    (priority : Float) : SameSuccesses c
      (c.activateGuide task activePath matched guideTargetId bestSeedId priority) := fun id => by
  rw [SchedulerCore.activateGuide_taskStates]
  split
  · rw [Option.map_map]
    rfl
  · split
    · exact steady_guideSuccesses.map_deactivated _
    · rfl

/-! ## What leaves the credit alone -/

/-- The interned targets are the same. -/
structure SameTable (s s' : SemanticRuntimeMetadata) : Prop where
  indices : s'.targetIndices = s.targetIndices
  names : s'.targetNames = s.targetNames

theorem SameTable.trans (h : SameTable s s') (h' : SameTable s' s'') : SameTable s s'' :=
  ⟨h'.indices.trans h.indices, h'.names.trans h.names⟩

/-- Neither the selection nor what has been credited changes. -/
structure Kept (s s' : SemanticRuntimeMetadata) : Prop where
  fields : s'.toSelectionFields = s.toSelectionFields
  attempts : s'.attemptHistory = s.attemptHistory
  successes : SameSuccesses s.toSchedulerCore s'.toSchedulerCore
  table : SameTable s s'

theorem Kept.refl (s : SemanticRuntimeMetadata) : Kept s s := ⟨rfl, rfl, fun _ => rfl, rfl, rfl⟩

theorem Kept.trans (h : Kept s s') (h' : Kept s' s'') : Kept s s'' :=
  ⟨h'.fields.trans h.fields, h'.attempts.trans h.attempts, h.successes.trans h'.successes,
    h.table.trans h'.table⟩

theorem Kept.setTask {id : Text} {r r' : TaskRuntimeState} (hr : s.taskStates[id]? = some r)
    (h : r'.guideSuccesses = r.guideSuccesses) :
    Kept s { s with toSchedulerCore := s.setTask id r' } :=
  ⟨rfl, rfl, SameField.setTask hr h, rfl, rfl⟩

theorem refreshStates_kept (s : SemanticRuntimeMetadata) : Kept s s.refreshStates := by
  have h := steady_guideSuccesses.foldl_refreshStep s s.plan.tasks (s.taskStates, false)
  unfold refreshStates
  generalize s.plan.tasks.foldl s.refreshStep (s.taskStates, false) = acc at h ⊢
  rcases acc with ⟨states, reactivated⟩
  cases reactivated with
  | true => exact ⟨rfl, rfl, h, rfl, rfl⟩
  | false => exact ⟨rfl, rfl, h, rfl, rfl⟩

theorem tickSelection_kept (s : SemanticRuntimeMetadata) : Kept s s.tickSelection := by
  have htick : Kept s { s with selectionEpoch := saturatingAdd s.selectionEpoch 1 } :=
    ⟨rfl, rfl, fun _ => rfl, rfl, rfl⟩
  unfold tickSelection
  simp only
  split
  · exact htick.trans (refreshStates_kept _)
  · exact htick

theorem cacheSeedProfile_kept (s : SemanticRuntimeMetadata) (profile : SeedProfile) :
    Kept s (s.cacheSeedProfile profile).1 := by
  unfold cacheSeedProfile
  simp only
  split
  · exact .refl s
  · split
    · exact ⟨rfl, rfl, fun _ => rfl, rfl, rfl⟩
    · split
      · exact ⟨rfl, rfl, fun _ => rfl, rfl, rfl⟩
      · exact ⟨rfl, rfl, fun _ => rfl, rfl, rfl⟩

theorem foldl_coverIndex_kept (s : SemanticRuntimeMetadata) (hits : List ℕ) :
    Kept s (hits.foldl coverIndex (s, false)).1 := by
  refine List.foldlRecOn (motive := fun acc => Kept s acc.1) hits coverIndex ?_ ?_
  · exact .refl s
  rintro ⟨s', advanced⟩ h index -
  unfold coverIndex
  simp only
  split
  · exact h
  · split
    · exact h.trans ⟨rfl, rfl, fun _ => rfl, rfl, rfl⟩
    · exact h.trans ⟨rfl, rfl, fun _ => rfl, rfl, rfl⟩

theorem coverHits_kept (s : SemanticRuntimeMetadata) (hits : List ℕ) :
    Kept s (s.coverHits hits).1 := by
  have hcover := s.foldl_coverIndex_kept hits
  unfold coverHits
  generalize hits.foldl coverIndex (s, false) = acc at hcover ⊢
  rcases acc with ⟨s', advanced⟩
  cases advanced with
  | true =>
    refine hcover.trans (.trans ?_ (refreshStates_kept _))
    exact ⟨rfl, rfl, fun _ => rfl, rfl, rfl⟩
  | false => exact hcover

theorem improvePrefix_kept (s : SemanticRuntimeMetadata) (id : Text) (matched : ℕ) :
    Kept s (s.improvePrefix id matched).1 := by
  unfold improvePrefix
  split
  · rename_i r pathKey hr hkey
    have himprove : Kept s { s with toSchedulerCore := s.setTask id { r with
        bestPrefixByPath := r.bestPrefixByPath.insert pathKey matched } } := .setTask hr rfl
    simp only
    split
    · split
      · exact himprove
      · exact .refl s
    · split
      · exact himprove
      · exact .refl s
  · exact .refl s

theorem rankTasks_kept (s : SemanticRuntimeMetadata) (ranked : List (Float × Text))
    (tasks : List SemanticTask) : Kept s (s.rankTasks ranked tasks).1 := by
  induction tasks generalizing s ranked with
  | nil => exact .refl s
  | cons task tasks ih =>
    unfold rankTasks
    split
    · exact .refl s
    · rename_i r hr
      split
      · exact ih s ranked
      · simp only
        split
        · exact ih s ranked
        · refine .trans ?_ (ih _ _)
          exact .setTask hr rfl

/-! ## The active guide -/

theorem nul_not_mem_pathKeyOf (task : SemanticTask) (activePath : List Text) :
    nul ∉ pathKeyOf task activePath := by
  unfold pathKeyOf
  simp only
  split
  · rw [List.mem_append, not_or]
    refine ⟨by decide, fun hmem => ?_⟩
    exact absurd (isDigit_of_mem_decimal hmem) (by decide)
  · decide

/-- The path of a selection has a key, and the key is one field of an identity. -/
structure GuideInv (c : SchedulerCore) : Prop where
  selection : SelectionInv c
  pathKey : ∀ id, c.activeTaskId = some id → ∃ pathKey, c.activePathKey = some pathKey ∧ nul ∉ pathKey

theorem GuideInv.exists_guide {c : SchedulerCore} (h : GuideInv c) {id : Text}
    (hid : c.activeTaskId = some id) : ∃ g : Guide, c.guide = some g ∧ g.taskId = id := by
  obtain ⟨index, target, hindex, htarget, -⟩ := h.selection.guide id hid
  obtain ⟨pathKey, hkey, -⟩ := h.pathKey id hid
  refine ⟨⟨id, pathKey, index, target, c.activePath⟩, ?_, rfl⟩
  rw [SelectionFields.guide, hid, hkey, hindex, htarget]
  rfl

theorem guide_eq_some {f : SelectionFields} {g : Guide} (h : f.guide = some g) :
    f.activeTaskId = some g.taskId ∧ f.activePathKey = some g.pathKey ∧
      f.activeGuideIndex = some g.index ∧ f.guideTargetId = some g.target ∧
      f.activePath = g.path := by
  obtain ⟨taskId, hid, h⟩ := Option.bind_eq_some_iff.1 h
  obtain ⟨pathKey, hkey, h⟩ := Option.bind_eq_some_iff.1 h
  obtain ⟨index, hindex, h⟩ := Option.bind_eq_some_iff.1 h
  obtain ⟨target, htarget, h⟩ := Option.bind_eq_some_iff.1 h
  obtain rfl := Option.some.inj h
  exact ⟨hid, hkey, hindex, htarget, rfl⟩

theorem guide_eq_none {f : SelectionFields} (h : f.activeTaskId = none) : f.guide = none := by
  rw [SelectionFields.guide, h]
  rfl

theorem GuideInv.of_pathKey {c c' : SchedulerCore} (h : GuideInv c) (hsel : SelectionInv c')
    (hid : c'.activeTaskId = c.activeTaskId) (hkey : c'.activePathKey = c.activePathKey) :
    GuideInv c' := by
  refine ⟨hsel, fun id hactive => ?_⟩
  rw [hkey]
  exact h.pathKey id (hid ▸ hactive)

theorem GuideInv.transition {c c' : SchedulerCore} (h : GuideInv c) (ht : Transition c c') :
    GuideInv c' := by
  have hsel := h.selection.transition ht
  cases ht with
  | refreshTask hmem hr => exact h.of_pathKey hsel rfl rfl
  | note hr hnoted => exact h.of_pathKey hsel rfl rfl
  | suspend =>
    refine ⟨hsel, fun id hid => ?_⟩
    rw [c.suspendSelection_fields] at hid
    cases hid
  | activate bestSeedId priority hr hstatus hguide =>
    exact ⟨hsel, fun _ _ => ⟨_, rfl, nul_not_mem_pathKeyOf _ _⟩⟩
  | succeed hid => exact h.of_pathKey hsel rfl rfl
  | dropSelection => exact h.of_pathKey hsel rfl rfl
  | cover hgrow => exact h.of_pathKey hsel rfl rfl
  | advanceCoverage hgrow hnew => exact h.of_pathKey hsel rfl rfl
  | advanceSelection => exact h.of_pathKey hsel rfl rfl
  | advanceCorpus => exact h.of_pathKey hsel rfl rfl
  | names indices => exact h.of_pathKey hsel rfl rfl

theorem GuideInv.transitions {c c' : SchedulerCore} (h : GuideInv c)
    (ht : Transitions c c') : GuideInv c' := by
  induction ht with
  | refl => exact h
  | tail _ ht ih => exact ih.transition ht

theorem recordFailure_fields (c : SchedulerCore) (id : Text) (r : TaskRuntimeState) :
    (c.recordFailure id r).toSelectionFields = c.toSelectionFields ∨
      (c.recordFailure id r).toSelectionFields = {} := by
  unfold SchedulerCore.recordFailure
  simp only
  split
  · split
    · exact .inr (SchedulerCore.suspendSelection_fields _)
    · exact .inl rfl
  · exact .inl rfl

theorem suspendSelection_targetIndices (c : SchedulerCore) :
    c.suspendSelection.targetIndices = c.targetIndices := by
  unfold SchedulerCore.suspendSelection SchedulerCore.deactivate
  simp only
  split
  · split
    · split <;> rfl
    · rfl
  · rfl

theorem recordFailure_targetIndices (c : SchedulerCore) (id : Text) (r : TaskRuntimeState) :
    (c.recordFailure id r).targetIndices = c.targetIndices := by
  unfold SchedulerCore.recordFailure
  simp only
  split
  · split
    · exact suspendSelection_targetIndices _
    · rfl
  · rfl

theorem GuideInv.step (h : GuideInv s.toSchedulerCore) (op : Op) :
    GuideInv (step s op).toSchedulerCore := by
  have hsel := step_selectionInv h.selection op
  rcases step_cases s op with ht | ⟨id, hf⟩
  · exact h.transitions ht
  · generalize (Semantic.step s op).toSchedulerCore = c' at hf hsel ⊢
    cases hf with
    | @fail r hr hstatus =>
      rcases recordFailure_fields s.toSchedulerCore id r with hfields | hfields
      · exact h.of_pathKey hsel (by rw [hfields]) (by rw [hfields])
      · refine ⟨hsel, fun id hid => ?_⟩
        rw [hfields] at hid
        cases hid

/-! ## Crediting -/

/-- The execution with this order credits the guide. -/
structure Credit (s : SemanticRuntimeMetadata) (ordered : List ℕ) (g : Guide) : Prop where
  guide : s.guide = some g
  first : s.activeSelectionSucceeded = false
  shown : (s.indexPath (g.path.take (g.index + 1))).Sublist (ordered.map some)

/-- Nothing is credited. -/
structure Quiet (s s' : SemanticRuntimeMetadata) : Prop where
  attempts : ∀ a, Recorded s s' a → a.covered = false
  successes : SameSuccesses s.toSchedulerCore s'.toSchedulerCore

/-- Only the guide is credited, with at most one attempt and one success. -/
structure Credited (g : Guide) (s s' : SemanticRuntimeMetadata) : Prop where
  guide : s'.guide = s.guide
  succeeded : s'.activeSelectionSucceeded = true
  attempts : ∀ a, Recorded s s' a → AttemptAt g a
  successes : ∀ id identity, s'.guideSuccessCount id identity ≠ s.guideSuccessCount id identity →
    id = g.taskId ∧ identity = g.identity ∧
      s'.guideSuccessCount id identity = saturatingAdd (s.guideSuccessCount id identity) 1 ∧
      ∃ a, Recorded s s' a ∧ a.covered = true
  table : SameTable s s'

theorem Kept.quiet (h : Kept s s') : Quiet s s' :=
  ⟨fun a ha => absurd ha (not_recorded_self a h.attempts), h.successes⟩

/-- Nothing is recorded. -/
structure Unrecorded (s s' : SemanticRuntimeMetadata) : Prop where
  attempts : s'.attemptHistory = s.attemptHistory
  successes : SameSuccesses s.toSchedulerCore s'.toSchedulerCore
  table : SameTable s s'

theorem Unrecorded.quiet (h : Unrecorded s s') : Quiet s s' :=
  ⟨fun a ha => absurd ha (not_recorded_self a h.attempts), h.successes⟩

theorem Unrecorded.of_kept (h : Unrecorded s' s'') (hk : Kept s s') : Unrecorded s s'' :=
  ⟨h.attempts.trans hk.attempts, hk.successes.trans h.successes, hk.table.trans h.table⟩

theorem guideSuccessCount_congr (h : SameSuccesses s.toSchedulerCore s'.toSchedulerCore)
    (id identity : Text) : s'.guideSuccessCount id identity = s.guideSuccessCount id identity := by
  have h := h id
  unfold guideSuccessCount
  cases hr : s.taskStates[id]? with
  | none =>
    rw [hr, Option.map_none, Option.map_eq_none_iff] at h
    rw [h]
  | some r =>
    rw [hr, Option.map_some, Option.map_eq_some_iff] at h
    obtain ⟨r', hr', hsucc⟩ := h
    rw [hr', Option.bind_some, Option.bind_some, hsucc]

/-- An identity names its guide. -/
theorem identityFields_identity {g : Guide} {fields : Text × ℕ × Text} (hkey : nul ∉ g.pathKey)
    (h : identityFields g.identity = some fields) : fields = (g.pathKey, g.index, g.target) := by
  have hdecimal : nul ∉ decimal g.index := fun hmem =>
    absurd (isDigit_of_mem_decimal hmem) (by decide)
  unfold identityFields Guide.identity guideIdentity at h
  simp only [splitOnce_append hkey, splitOnce_append hdecimal, Option.bind_eq_bind,
    Option.bind_some] at h
  obtain ⟨index, hindex, h⟩ := Option.bind_eq_some_iff.1 h
  obtain rfl := Option.some.inj h
  have hindex : index = g.index := by
    obtain ⟨-, ⟨digits, hplus, -⟩ | hread⟩ := parseUnsigned_eq_some hindex
    · have hmem : '+' ∈ decimal g.index := hplus ▸ List.mem_cons_self
      exact absurd (isDigit_of_mem_decimal hmem) (by decide)
    · rw [readNumber_decimal] at hread
      exact (Option.some.inj hread).symm
  rw [hindex]

theorem recordSuccess_fields (s : SemanticRuntimeMetadata) (id identity : Text)
    (r : TaskRuntimeState) :
    (s.recordSuccess id identity r).toSelectionFields = s.toSelectionFields ∧
      (s.recordSuccess id identity r).attemptHistory = s.attemptHistory ∧
      SameTable s (s.recordSuccess id identity r) := by
  unfold recordSuccess
  simp only
  split
  · exact ⟨rfl, rfl, rfl, rfl⟩
  · exact ⟨rfl, rfl, rfl, rfl⟩

theorem recordSuccess_count {id : Text} {r : TaskRuntimeState} (identity : Text)
    (hr : s.taskStates[id]? = some r) (id' identity' : Text) :
    (s.recordSuccess id identity r).guideSuccessCount id' identity' =
      if id = id' ∧ identity = identity' then saturatingAdd (s.guideSuccessCount id identity) 1
      else s.guideSuccessCount id' identity' := by
  have hstates : ∀ t : TaskRuntimeState, ∀ c : SchedulerCore, c.taskStates = s.taskStates →
      (c.setTask id t).taskStates[id']? = if id = id' then some t else s.taskStates[id']? := by
    intro t c hc
    rw [SchedulerCore.setTask_taskStates, hc]
  unfold guideSuccessCount recordSuccess
  simp only
  split
  all_goals
    simp only [markRankingDirty, hstates _ s.toSchedulerCore rfl]
    by_cases hid : id = id'
    · subst hid
      rw [if_pos rfl, hr, Option.bind_some, Option.bind_some, Option.bind_some, getElem?_insert_eq]
      by_cases hidentity : identity = identity'
      · rw [if_pos hidentity, if_pos ⟨rfl, hidentity⟩]
        rfl
      · rw [if_neg hidentity, if_neg fun h => hidentity h.2]
    · rw [if_neg hid, if_neg fun h => hid h.1]

/-- A success of the guide, as the identity names it. -/
theorem recordAssignedAttempt_credited (g : Guide) (hkey : nul ∉ g.pathKey)
    (hfirst : s.activeSelectionSucceeded = true) (seedId : Option ℕ) :
    Credited g s (s.recordAssignedAttempt g.taskId g.identity true seedId) := by
  unfold recordAssignedAttempt
  cases hfields : identityFields g.identity with
  | none =>
    refine ⟨rfl, hfirst, fun a ha => absurd ha (not_recorded_self a rfl), fun id identity h => ?_,
      rfl, rfl⟩
    exact absurd rfl h
  | some fields =>
    obtain rfl := identityFields_identity hkey hfields
    simp only [if_true]
    set a : AttemptHistory := {
      taskId := g.taskId
      guideTargetId := some g.target
      pathKey := some g.pathKey
      guideIndex := some g.index
      seedId := seedId
      covered := true
      coverageEpoch := s.coverageEpoch } with ha
    have hat : AttemptAt g a := ⟨rfl, rfl, rfl, rfl⟩
    have hcore : (s.pushAttempt a).toSchedulerCore = s.toSchedulerCore := rfl
    cases hr : (s.pushAttempt a).taskStates[g.taskId]? with
    | none =>
      refine ⟨rfl, hfirst, fun a' ha' => ?_, fun id identity h => ?_, rfl, rfl⟩
      · have hrec : Recorded s (s.pushAttempt a) a := rfl
        rw [ha'.unique hrec]
        exact hat
      · exact absurd (guideSuccessCount_congr (fun _ => rfl) id identity) h
    | some r =>
      obtain ⟨hselection, hhistory, htable⟩ :=
        recordSuccess_fields (s.pushAttempt a) g.taskId g.identity r
      have hrec : Recorded s ((s.pushAttempt a).recordSuccess g.taskId g.identity r) a := hhistory
      refine ⟨?_, ?_, fun a' ha' => ?_, fun id identity h => ?_, htable.indices, htable.names⟩
      · rw [hselection]
        rfl
      · rw [hselection]
        exact hfirst
      · rw [ha'.unique hrec]
        exact hat
      · have hpush : ∀ id identity,
            (s.pushAttempt a).guideSuccessCount id identity = s.guideSuccessCount id identity :=
          guideSuccessCount_congr fun _ => rfl
        have hcount := recordSuccess_count g.identity hr id identity
        rw [hpush, hpush] at hcount
        split at hcount
        · rename_i heq
          obtain ⟨rfl, rfl⟩ := heq
          exact ⟨rfl, rfl, hcount, a, hrec, rfl⟩
        · exact absurd hcount h

theorem recordAttempt_credited {g : Guide} (hg : s.guide = some g) (hkey : nul ∉ g.pathKey)
    (hfirst : s.activeSelectionSucceeded = false) (seedId : Option ℕ) :
    Credited g s (s.recordAttempt true seedId) := by
  obtain ⟨hid, hpath, hindex, htarget, -⟩ := guide_eq_some hg
  have hcredited := recordAssignedAttempt_credited (s := { s with activeSelectionSucceeded := true })
    g hkey rfl seedId
  have hrecord : s.recordAttempt true seedId = { s with activeSelectionSucceeded := true
      }.recordAssignedAttempt g.taskId g.identity true seedId := by
    unfold recordAttempt
    split
    · rename_i id target hid' htarget'
      rw [hid, Option.some.injEq] at hid'
      rw [htarget, Option.some.injEq] at htarget'
      subst hid' htarget'
      rw [hfirst, Bool.and_false, if_neg Bool.false_ne_true, if_pos rfl]
      simp only [hpath, hindex, Option.getD_some]
      rfl
    · rename_i hnone
      exact (hnone _ _ hid htarget).elim
  rw [hrecord]
  exact ⟨hcredited.guide, hcredited.succeeded, hcredited.attempts, hcredited.successes,
    hcredited.table.indices, hcredited.table.names⟩

theorem Credited.of_kept {g : Guide} (h : Credited g s' s'') (hk : Kept s s') :
    Credited g s s'' := by
  have hrec : ∀ a, Recorded s s'' a ↔ Recorded s' s'' a := fun a => by
    unfold Recorded pushAttempt
    rw [hk.attempts]
  have hcount := guideSuccessCount_congr hk.successes
  refine ⟨?_, h.succeeded, fun a ha => h.attempts a ((hrec a).1 ha), fun id identity hne => ?_,
    hk.table.trans h.table⟩
  · rw [h.guide, hk.fields]
  · rw [← hcount] at hne ⊢
    obtain ⟨hid, hidentity, hsucc, a, ha, hcov⟩ := h.successes id identity hne
    exact ⟨hid, hidentity, hsucc, a, (hrec a).2 ha, hcov⟩

theorem Credited.then_dirty {g : Guide} (h : Credited g s s') (reason : Text) :
    Credited g s (s'.markRankingDirty reason) :=
  ⟨h.guide, h.succeeded, h.attempts, h.successes, h.table.indices, h.table.names⟩

theorem Kept.then_dirty (h : Kept s s') (reason : Text) : Kept s (s'.markRankingDirty reason) :=
  ⟨h.fields, h.attempts, h.successes, h.table.indices, h.table.names⟩

/-- **What an execution credits**: nothing, or the active guide, when it shows the path up to the
guide and the selection has not been credited before. -/
theorem recordIndexedExecution_credit (h : GuideInv s.toSchedulerCore) (hits ordered : List ℕ)
    (complete : Bool) : Kept s (s.recordIndexedExecution hits ordered complete).1 ∨
      ∃ g, Credit s ordered g ∧ Credited g s (s.recordIndexedExecution hits ordered complete).1 := by
  have hcover := s.coverHits_kept hits
  unfold recordIndexedExecution
  simp only
  generalize s.coverHits hits = covered at hcover ⊢
  rcases covered with ⟨s₁, advanced⟩
  simp only at hcover
  suffices hordered : Kept s (s₁.recordOrdered ordered).1 ∨
      ∃ g, Credit s ordered g ∧ Credited g s (s₁.recordOrdered ordered).1 by
    split
    · exact hordered.imp (fun h => h.then_dirty _) fun ⟨g, hg, h⟩ => ⟨g, hg, h.then_dirty _⟩
    · exact hordered
  unfold recordOrdered
  cases hid : s₁.activeTaskId with
  | none => exact .inl hcover
  | some id =>
    simp only
    set matched := orderedPrefixLenIndexed s₁.activePathIndices ordered with hmatched
    have himprove := hcover.trans (improvePrefix_kept s₁ id matched)
    generalize s₁.improvePrefix id matched = improved at himprove ⊢
    rcases improved with ⟨s₂, flag⟩
    simp only at himprove ⊢
    split
    · rename_i hguide
      right
      have hfields := himprove.fields
      rw [Bool.and_eq_true, Bool.not_eq_true', hfields, Option.any_eq_true] at hguide
      obtain ⟨hfirst, index, hindex, hlt⟩ := hguide
      have hactive : s.activeTaskId = some id := by rw [← hid, hcover.fields]
      obtain ⟨g, hg, -⟩ := h.exists_guide hactive
      obtain ⟨-, hpathKey, hgindex, -, hpath⟩ := guide_eq_some hg
      have hkey : nul ∉ g.pathKey := by
        obtain ⟨pathKey, hsome, hnul⟩ := h.pathKey id hactive
        rw [hpathKey, Option.some.injEq] at hsome
        exact hsome ▸ hnul
      refine ⟨g, ⟨hg, hfirst, ?_⟩, ?_⟩
      · -- the matched part of the path was observed in its order, and the guide lies in it
        rw [hgindex, Option.some.injEq] at hindex
        have hlt : g.index + 1 ≤ matched := by
          rw [hindex]
          exact of_decide_eq_true hlt
        have hindices : s₁.activePathIndices = s.indexPath g.path := by
          rw [hcover.fields, h.selection.indices, hpath]
        have hshown := take_orderedPrefixLen_sublist (s.indexPath g.path) (ordered.map some)
        rw [hmatched, orderedPrefixLenIndexed, hindices] at hlt
        refine List.Sublist.trans ?_ hshown
        rw [SchedulerCore.indexPath, List.map_take]
        exact (List.take_prefix_take_left hlt).sublist
      · refine Credited.of_kept (recordAttempt_credited ?_ hkey ?_ _) himprove
        · rw [himprove.fields]
          exact hg
        · rw [himprove.fields]
          exact hfirst
    · exact .inl himprove

end SemanticRuntimeMetadata

end SemantiST.Semantic
