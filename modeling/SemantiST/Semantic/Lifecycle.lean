import SemantiST.Semantic.Transitions

/-!
# The lifecycle of a task

What a later moment of a run keeps of an earlier one: Covered and Unmapped are final, a Deferred
task stays Deferred until it is released, and coverage and best prefixes only grow.
-/

namespace SemantiST.Semantic

open Lib

/-- An id names one task.  The planner makes it a digest of what the task is; the loader of a plan
does not check it. -/
def SemanticTaskPlan.OneTaskPerId (plan : SemanticTaskPlan) : Prop :=
  ∀ task ∈ plan.tasks, ∀ task' ∈ plan.tasks, task.taskId = task'.taskId → task = task'

variable {c c' c'' : SchedulerCore} {task : SemanticTask} {r r' r'' : TaskRuntimeState} {id : Text}

/-- The part of the core that changes of the selection and of task states leave as it is. -/
def SchedulerCore.fixedPart (c : SchedulerCore) :
    SemanticTaskPlan × Std.ExtTreeSet Text compare × ℕ × ℕ × ℕ :=
  (c.plan, c.coveredTargetIds, c.coverageEpoch, c.corpusEpoch, c.selectionEpoch)

/-! ## One task -/

/-- What holds of the state of a task. -/
structure TaskInv (c : SchedulerCore) (task : SemanticTask) (r : TaskRuntimeState) : Prop where
  failures : r.status = .ready ∨ r.status = .active → r.failedAttempts < deferAfterFailures
  blocked : r.status = .blocked → taskHasExecutablePath task = false
  path : r.status ≠ .unmapped → r.status ≠ .blocked → taskHasExecutablePath task = true
  covered : r.status = .covered → task.terminalTargetId ∈ c.coveredTargetIds

/-- What lets a Deferred task go: its terminal target is covered, or a retry is due. -/
def Released (c : SchedulerCore) (task : SemanticTask) (r : TaskRuntimeState) : Prop :=
  task.terminalTargetId ∈ c.coveredTargetIds ∨ RetryDue c r

/-- What the state `r` of a task becomes: `r'`, at the moment `c`. -/
structure TaskFollows (c : SchedulerCore) (id : Text) (r r' : TaskRuntimeState) : Prop where
  covered : r.status = .covered → r'.status = .covered
  unmapped : r.status = .unmapped → r'.status = .unmapped
  /-- It stays Deferred, with the record of its deferral, or it has been released. -/
  deferred : r.status = .deferred →
    (r'.status = .deferred ∧ r'.deferredAtCoverageEpoch = r.deferredAtCoverageEpoch ∧
      r'.deferredAtCorpusEpoch = r.deferredAtCorpusEpoch ∧
      r'.retryAfterSelection = r.retryAfterSelection) ∨
    ∃ task ∈ c.plan.tasks, task.taskId = id ∧ Released c task r
  bestPrefix : ∀ (path : Text) (n : ℕ), r.bestPrefixByPath[path]? = some n →
    ∃ n', r'.bestPrefixByPath[path]? = some n' ∧ n ≤ n'

theorem TaskFollows.refl (c : SchedulerCore) (id : Text) (r : TaskRuntimeState) :
    TaskFollows c id r r :=
  ⟨fun h => h, fun h => h, fun h => .inl ⟨h, rfl, rfl, rfl⟩, fun _ n h => ⟨n, h, le_rfl⟩⟩

/-! ## Two moments -/

/-- What a later moment keeps of an earlier one. -/
structure Follows (c c' : SchedulerCore) : Prop where
  plan : c'.plan = c.plan
  covered : ∀ name ∈ c.coveredTargetIds, name ∈ c'.coveredTargetIds
  coverageEpoch : c.coverageEpoch ≤ c'.coverageEpoch
  corpusEpoch : c.corpusEpoch ≤ c'.corpusEpoch
  selectionEpoch : c.selectionEpoch ≤ c'.selectionEpoch
  /-- A new coverage epoch comes with a new covered target. -/
  newCoverage : c.coverageEpoch < c'.coverageEpoch →
    ∃ name ∈ c'.coveredTargetIds, name ∉ c.coveredTargetIds
  tasks : ∀ (id : Text) (r : TaskRuntimeState), c.taskStates[id]? = some r →
    ∃ r', c'.taskStates[id]? = some r' ∧ TaskFollows c' id r r'

theorem RetryDue.mono (h : RetryDue c r) (hf : Follows c c') : RetryDue c' r := by
  rcases h with h | h | h
  · left
    cases hd : r.deferredAtCoverageEpoch with
    | none => simp [hd] at h
    | some epoch =>
      simp only [hd, Option.getD_some] at h ⊢
      exact h.trans_le hf.coverageEpoch
  · exact .inr (.inl (h.trans_le hf.corpusEpoch))
  · exact .inr (.inr (h.trans hf.selectionEpoch))

theorem Released.mono (h : Released c task r) (hf : Follows c c') : Released c' task r :=
  h.imp (hf.covered _) fun hdue => hdue.mono hf

theorem TaskFollows.trans (h : TaskFollows c id r r') (hf : Follows c c')
    (h' : TaskFollows c' id r' r'') : TaskFollows c' id r r'' where
  covered hs := h'.covered (h.covered hs)
  unmapped hs := h'.unmapped (h.unmapped hs)
  deferred hs := by
    rcases h.deferred hs with ⟨hs', h₁, h₂, h₃⟩ | ⟨task, hmem, hid, hrel⟩
    · rcases h'.deferred hs' with ⟨hs'', h₁', h₂', h₃'⟩ | ⟨task, hmem, hid, hrel⟩
      · exact .inl ⟨hs'', h₁'.trans h₁, h₂'.trans h₂, h₃'.trans h₃⟩
      · refine .inr ⟨task, hmem, hid, ?_⟩
        unfold Released RetryDue at hrel ⊢
        rwa [h₁, h₂, h₃] at hrel
    · rw [← hf.plan] at hmem
      exact .inr ⟨task, hmem, hid, hrel.mono hf⟩
  bestPrefix path n hn := by
    obtain ⟨n', hn', hle⟩ := h.bestPrefix path n hn
    obtain ⟨n'', hn'', hle'⟩ := h'.bestPrefix path n' hn'
    exact ⟨n'', hn'', hle.trans hle'⟩

theorem Follows.refl (c : SchedulerCore) : Follows c c :=
  ⟨rfl, fun _ h => h, le_rfl, le_rfl, le_rfl, fun h => absurd h (lt_irrefl _),
    fun id r h => ⟨r, h, .refl c id r⟩⟩

theorem Follows.trans (h : Follows c c') (h' : Follows c' c'') : Follows c c'' where
  plan := h'.plan.trans h.plan
  covered name hname := h'.covered name (h.covered name hname)
  coverageEpoch := h.coverageEpoch.trans h'.coverageEpoch
  corpusEpoch := h.corpusEpoch.trans h'.corpusEpoch
  selectionEpoch := h.selectionEpoch.trans h'.selectionEpoch
  newCoverage hlt := by
    rcases h.coverageEpoch.lt_or_eq with hfirst | hsame
    · obtain ⟨name, hmem, hnot⟩ := h.newCoverage hfirst
      exact ⟨name, h'.covered name hmem, hnot⟩
    · obtain ⟨name, hmem, hnot⟩ := h'.newCoverage (hsame ▸ hlt)
      exact ⟨name, hmem, fun hn => hnot (h.covered name hn)⟩
  tasks id r hr := by
    obtain ⟨r', hr', hfollows⟩ := h.tasks id r hr
    obtain ⟨r'', hr'', hfollows'⟩ := h'.tasks id r' hr'
    exact ⟨r'', hr'', hfollows.trans h' hfollows'⟩

/-! ## The invariant -/

/-- What holds of the states of all tasks. -/
structure LifecycleInv (c : SchedulerCore) : Prop where
  oneTask : c.plan.OneTaskPerId
  tasks : ∀ (id : Text) (r : TaskRuntimeState), c.taskStates[id]? = some r →
    ∃ task ∈ c.plan.tasks, task.taskId = id ∧ TaskInv c task r
  coverageEpoch : c.coverageEpoch ≤ u64Max
  corpusEpoch : c.corpusEpoch ≤ u64Max
  selectionEpoch : c.selectionEpoch ≤ u64Max

/-- A change of task states under which each keeps its invariant and follows the one before. -/
theorem LifecycleInv.change (h : LifecycleInv c) (f : Text → TaskRuntimeState → TaskRuntimeState)
    (hfixed : c'.fixedPart = c.fixedPart)
    (htasks : ∀ id, c'.taskStates[id]? = (c.taskStates[id]?).map (f id))
    (hf : ∀ task ∈ c.plan.tasks, ∀ r, c.taskStates[task.taskId]? = some r → TaskInv c task r →
      TaskInv c task (f task.taskId r) ∧ TaskFollows c task.taskId r (f task.taskId r)) :
    LifecycleInv c' ∧ Follows c c' := by
  simp only [SchedulerCore.fixedPart, Prod.mk.injEq] at hfixed
  obtain ⟨hplan, hcovered, hcoverage, hcorpus, hselection⟩ := hfixed
  have hinv : ∀ task r, TaskInv c task r → TaskInv c' task r := fun task r ht =>
    ⟨ht.failures, ht.blocked, ht.path, fun hs => by rw [hcovered]; exact ht.covered hs⟩
  constructor
  · refine ⟨by rw [hplan]; exact h.oneTask, fun id r hr => ?_, by rw [hcoverage]; exact h.coverageEpoch,
      by rw [hcorpus]; exact h.corpusEpoch, by rw [hselection]; exact h.selectionEpoch⟩
    rw [htasks] at hr
    obtain ⟨r₀, hr₀, rfl⟩ := Option.map_eq_some_iff.1 hr
    obtain ⟨task, hmem, rfl, ht⟩ := h.tasks id r₀ hr₀
    exact ⟨task, by rwa [hplan], rfl, hinv task _ (hf task hmem r₀ hr₀ ht).1⟩
  · refine ⟨hplan, fun name hname => by rwa [hcovered], hcoverage.ge, hcorpus.ge, hselection.ge,
      fun hlt => absurd hcoverage (ne_of_gt hlt), fun id r hr => ?_⟩
    obtain ⟨task, hmem, rfl, ht⟩ := h.tasks id r hr
    refine ⟨f task.taskId r, by rw [htasks, hr]; rfl, ?_⟩
    have hfollows := (hf task hmem r hr ht).2
    refine ⟨hfollows.covered, hfollows.unmapped, fun hs => ?_, hfollows.bestPrefix⟩
    rcases hfollows.deferred hs with hstay | ⟨task', hmem', hid, hrel⟩
    · exact .inl hstay
    · refine .inr ⟨task', by rwa [hplan], hid, ?_⟩
      unfold Released RetryDue at hrel ⊢
      rwa [hcovered, hcoverage, hcorpus, hselection]

/-- Changing the state of one task. -/
theorem LifecycleInv.setTask (h : LifecycleInv c) (hr : c.taskStates[id]? = some r)
    (hf : ∀ task ∈ c.plan.tasks, task.taskId = id → TaskInv c task r →
      TaskInv c task r' ∧ TaskFollows c id r r') :
    LifecycleInv (c.setTask id r') ∧ Follows c (c.setTask id r') := by
  refine h.change (fun id' s => if id = id' then r' else s) rfl (fun id' => ?_)
    fun task hmem s hs ht => ?_
  · rw [SchedulerCore.setTask_taskStates]
    split
    · rename_i hid
      subst hid
      rw [hr]
      rfl
    · simp
  · split
    · rename_i hid
      subst hid
      rw [hr, Option.some.injEq] at hs
      subst hs
      exact hf task hmem rfl ht
    · exact ⟨ht, .refl c _ s⟩

/-! ### Task states -/

theorem TaskInv.refreshed (h : TaskInv c task r) (hr : Refreshed c task r r')
    (hmem : task ∈ c.plan.tasks) : TaskInv c task r' ∧ TaskFollows c task.taskId r r' := by
  have hbest : ∀ (path : Text) (n : ℕ), r.bestPrefixByPath[path]? = some n →
      ∃ n', r.bestPrefixByPath[path]? = some n' ∧ n ≤ n' := fun _ n hn => ⟨n, hn, le_rfl⟩
  cases hr with
  | keep hstatus => exact ⟨h, .refl c _ r⟩
  | block hstatus hpath =>
    refine ⟨⟨by simp, fun _ => hpath, by simp, by simp⟩, fun hs => ?_, fun hs => absurd hs hstatus,
      fun hs => ?_, hbest⟩
    · have := h.path hstatus (by simp [hs])
      rw [hpath] at this
      cases this
    · have := h.path hstatus (by simp [hs])
      rw [hpath] at this
      cases this
  | cover hstatus hpath hcovered =>
    exact ⟨⟨by simp, by simp, fun _ _ => hpath, fun _ => hcovered⟩, fun _ => rfl,
      fun hs => absurd hs hstatus, fun _ => .inr ⟨task, hmem, rfl, .inl hcovered⟩, hbest⟩
  | reactivate hstatus hpath hdue =>
    refine ⟨⟨fun _ => ?_, by simp, fun _ _ => hpath, by simp⟩, by simp [hstatus], by simp [hstatus],
      fun _ => .inr ⟨task, hmem, rfl, .inr hdue⟩, hbest⟩
    simp only [deferAfterFailures]
    omega
  | ready hstatus hpath hcovered =>
    refine ⟨⟨fun _ => ?_, by simp, fun _ _ => hpath, by simp⟩, fun hs => ?_,
      fun hs => absurd hs hstatus.1, fun hs => absurd hs hstatus.2, hbest⟩
    · cases hs : r.status with
      | ready => exact h.failures (.inl hs)
      | active => exact h.failures (.inr hs)
      | blocked =>
        have := h.blocked hs
        rw [hpath] at this
        cases this
      | covered => exact absurd (h.covered hs) hcovered
      | deferred => exact absurd hs hstatus.2
      | unmapped => exact absurd hs hstatus.1
    · exact absurd (h.covered hs) hcovered

theorem TaskInv.noted (h : TaskInv c task r) (hr : Noted r r') (id : Text) :
    TaskInv c task r' ∧ TaskFollows c id r r' := by
  refine ⟨⟨fun hs => ?_, fun hs => ?_, fun hs hs' => ?_, fun hs => ?_⟩, fun hs => ?_, fun hs => ?_,
    fun hs => .inl ⟨?_, hr.deferredAtCoverageEpoch, hr.deferredAtCorpusEpoch,
      hr.retryAfterSelection⟩, hr.bestPrefix⟩
  · exact hr.failedAttempts.trans_lt (h.failures (hr.status ▸ hs))
  · exact h.blocked (hr.status ▸ hs)
  · exact h.path (hr.status ▸ hs) (hr.status ▸ hs')
  · exact h.covered (hr.status ▸ hs)
  · exact hr.status.trans hs
  · exact hr.status.trans hs
  · exact hr.status.trans hs

/-- A change of a task that is Ready or Active, within the statuses of a task with a path. -/
theorem TaskInv.switched (h : TaskInv c task r) (id : Text)
    (hs : r.status = .ready ∨ r.status = .active)
    (hs' : r'.status = .ready ∨ r'.status = .active ∨ r'.status = .deferred)
    (hfailed : r'.status ≠ .deferred → r'.failedAttempts < deferAfterFailures)
    (hbest : r'.bestPrefixByPath = r.bestPrefixByPath) :
    TaskInv c task r' ∧ TaskFollows c id r r' := by
  have hpath : taskHasExecutablePath task = true := by
    rcases hs with hs | hs
    · exact h.path (by simp [hs]) (by simp [hs])
    · exact h.path (by simp [hs]) (by simp [hs])
  refine ⟨⟨fun hb => hfailed fun hd => ?_, fun hb => ?_, fun _ _ => hpath, fun hb => ?_⟩,
    fun hb => ?_, fun hb => ?_, fun hb => ?_, fun path n hn => ⟨n, by rwa [hbest], le_rfl⟩⟩
  · simp [hd] at hb
  · simp [hb] at hs'
  · simp [hb] at hs'
  · simp [hb] at hs
  · simp [hb] at hs
  · simp [hb] at hs

theorem TaskInv.deactivated (h : TaskInv c task r) (id : Text) :
    TaskInv c task r.deactivated ∧ TaskFollows c id r r.deactivated := by
  unfold TaskRuntimeState.deactivated
  split
  · rename_i hs
    exact h.switched id (.inr hs) (.inl rfl) (fun _ => h.failures (.inr hs)) rfl
  · exact ⟨h, .refl c id r⟩

/-! ### Transitions -/

section FixedPart

variable (c : SchedulerCore) (id : Text)

@[simp] theorem SchedulerCore.deactivate_fixedPart : (c.deactivate id).fixedPart = c.fixedPart := by
  unfold SchedulerCore.deactivate
  split
  · split <;> rfl
  · rfl

@[simp] theorem SchedulerCore.suspendSelection_fixedPart :
    c.suspendSelection.fixedPart = c.fixedPart := by
  unfold SchedulerCore.suspendSelection
  split
  · exact c.deactivate_fixedPart _
  · rfl

@[simp] theorem SchedulerCore.release_fixedPart : (c.release id).fixedPart = c.fixedPart := by
  unfold SchedulerCore.release
  split
  · split
    · exact c.deactivate_fixedPart _
    · rfl
  · rfl

@[simp] theorem SchedulerCore.activateGuide_fixedPart (task : SemanticTask) (activePath : List Text)
    (matched : ℕ) (guideTargetId : Text) (bestSeedId : Option ℕ) (priority : Float) :
    (c.activateGuide task activePath matched guideTargetId bestSeedId priority).fixedPart =
      c.fixedPart := by
  have hrelease := c.release_fixedPart task.taskId
  unfold SchedulerCore.activateGuide
  simp only
  split
  · exact hrelease
  · exact hrelease

end FixedPart

theorem LifecycleInv.suspendSelection (h : LifecycleInv c) :
    LifecycleInv c.suspendSelection ∧ Follows c c.suspendSelection := by
  refine h.change (fun id r => if c.activeTaskId = some id then r.deactivated else r)
    c.suspendSelection_fixedPart (fun id => ?_) fun task _ r _ ht => ?_
  · rw [SchedulerCore.suspendSelection_taskStates]
    split
    · rfl
    · simp
  · split
    · exact ht.deactivated _
    · exact ⟨ht, .refl c _ r⟩

theorem LifecycleInv.activateGuide (h : LifecycleInv c) (activePath : List Text) (matched : ℕ)
    (guideTargetId : Text) (bestSeedId : Option ℕ) (priority : Float)
    (hr : c.taskStates[task.taskId]? = some r) (hs : r.status = .ready ∨ r.status = .active) :
    LifecycleInv (c.activateGuide task activePath matched guideTargetId bestSeedId priority) ∧
      Follows c (c.activateGuide task activePath matched guideTargetId bestSeedId priority) := by
  refine h.change (fun id r => if task.taskId = id then { r with
        status := .active
        lastGuideTargetId := some guideTargetId
        bestSeedId := bestSeedId
        activePath := activePath
        guideTargetId := some guideTargetId
        remainingObligations := activePath.drop matched }
      else if c.activeTaskId = some id then r.deactivated else r)
    (c.activateGuide_fixedPart _ _ _ _ _ _) (fun id => ?_) fun task' _ r' hr' ht => ?_
  · rw [SchedulerCore.activateGuide_taskStates]
    split
    · rfl
    · split
      · rfl
      · simp
  · split
    · rename_i hid
      rw [← hid, hr, Option.some.injEq] at hr'
      subst hr'
      exact ht.switched _ hs (.inr (.inl rfl)) (fun _ => ht.failures hs) rfl
    · split
      · exact ht.deactivated _
      · exact ⟨ht, .refl c _ r'⟩

/-- A moment with the same task states, no less coverage and no earlier epochs. -/
theorem LifecycleInv.advance (h : LifecycleInv c) (hplan : c'.plan = c.plan)
    (htasks : c'.taskStates = c.taskStates)
    (hcovered : ∀ name ∈ c.coveredTargetIds, name ∈ c'.coveredTargetIds)
    (hcoverage : c.coverageEpoch ≤ c'.coverageEpoch ∧ c'.coverageEpoch ≤ u64Max)
    (hnew : c.coverageEpoch < c'.coverageEpoch →
      ∃ name ∈ c'.coveredTargetIds, name ∉ c.coveredTargetIds)
    (hcorpus : c.corpusEpoch ≤ c'.corpusEpoch ∧ c'.corpusEpoch ≤ u64Max)
    (hselection : c.selectionEpoch ≤ c'.selectionEpoch ∧ c'.selectionEpoch ≤ u64Max) :
    LifecycleInv c' ∧ Follows c c' := by
  refine ⟨⟨by rw [hplan]; exact h.oneTask, fun id r hr => ?_, hcoverage.2, hcorpus.2, hselection.2⟩,
    ⟨hplan, hcovered, hcoverage.1, hcorpus.1, hselection.1, hnew, fun id r hr => ?_⟩⟩
  · rw [htasks] at hr
    obtain ⟨task, hmem, hid, ht⟩ := h.tasks id r hr
    exact ⟨task, by rwa [hplan], hid, ht.failures, ht.blocked, ht.path,
      fun hs => hcovered _ (ht.covered hs)⟩
  · exact ⟨r, by rwa [htasks], .refl c' id r⟩

theorem le_saturatingAdd {n : ℕ} (k : ℕ) (hn : n ≤ u64Max) :
    n ≤ saturatingAdd n k ∧ saturatingAdd n k ≤ u64Max := by
  unfold saturatingAdd
  omega

/-- Every transition keeps the invariant, and what comes after follows what was before. -/
theorem LifecycleInv.transition (h : LifecycleInv c) (ht : Transition c c') :
    LifecycleInv c' ∧ Follows c c' := by
  have hsame {n : ℕ} (hn : n ≤ u64Max) : n ≤ n ∧ n ≤ u64Max := ⟨le_rfl, hn⟩
  have hold {P : Prop} (hlt : c.coverageEpoch < c.coverageEpoch) : P := absurd hlt (lt_irrefl _)
  cases ht with
  | @refreshTask task r hmem hr =>
    refine h.setTask hr fun task' hmem' hid hinv => ?_
    obtain rfl := h.oneTask _ hmem' _ hmem hid
    exact hinv.refreshed (refreshTask_refreshed c task' r) hmem
  | note hr hnoted => exact h.setTask hr fun _ _ _ hinv => hinv.noted hnoted _
  | suspend => exact h.suspendSelection
  | activate bestSeedId priority hr hstatus hguide =>
    exact h.activateGuide _ _ _ bestSeedId priority hr hstatus
  | cover hgrow =>
    exact h.advance rfl rfl hgrow (hsame h.coverageEpoch) hold (hsame h.corpusEpoch)
      (hsame h.selectionEpoch)
  | advanceCoverage hgrow hnew =>
    exact h.advance rfl rfl hgrow (le_saturatingAdd 1 h.coverageEpoch) (fun _ => hnew)
      (hsame h.corpusEpoch) (hsame h.selectionEpoch)
  | advanceSelection =>
    exact h.advance rfl rfl (fun _ hn => hn) (hsame h.coverageEpoch) hold (hsame h.corpusEpoch)
      (le_saturatingAdd 1 h.selectionEpoch)
  | advanceCorpus =>
    exact h.advance rfl rfl (fun _ hn => hn) (hsame h.coverageEpoch) hold
      (le_saturatingAdd 1 h.corpusEpoch) (hsame h.selectionEpoch)
  | succeed | dropSelection | names =>
    exact h.advance rfl rfl (fun _ hn => hn) (hsame h.coverageEpoch) hold (hsame h.corpusEpoch)
      (hsame h.selectionEpoch)

theorem LifecycleInv.transitions (h : LifecycleInv c) (ht : Transitions c c') :
    LifecycleInv c' ∧ Follows c c' := by
  induction ht with
  | refl => exact ⟨h, .refl c⟩
  | tail _ hlast ih =>
    obtain ⟨hinv, hfollows⟩ := ih
    obtain ⟨hinv', hfollows'⟩ := hinv.transition hlast
    exact ⟨hinv', hfollows.trans hfollows'⟩

/-- A failure keeps the invariant too. -/
theorem LifecycleInv.failure (h : LifecycleInv c) (hf : Failure c id c') :
    LifecycleInv c' ∧ Follows c c' := by
  rcases hf with ⟨hr, hs⟩
  rename_i r
  unfold SchedulerCore.recordFailure
  simp only
  split
  · let deferred := { r with
      attempts := saturatingAdd r.attempts 1
      failedAttempts := saturatingAdd r.failedAttempts 1
      status := .deferred
      deferredAtCoverageEpoch := some c.coverageEpoch
      deferredAtCorpusEpoch := c.corpusEpoch
      retryAfterSelection := saturatingAdd c.selectionEpoch 128 }
    have hdefer : LifecycleInv (c.setTask id deferred) ∧ Follows c (c.setTask id deferred) :=
      h.setTask hr fun task _ _ hinv =>
        hinv.switched id hs (.inr (.inr rfl)) (fun hne => absurd rfl hne) rfl
    split
    · obtain ⟨hinv, hfollows⟩ := hdefer
      obtain ⟨hinv', hfollows'⟩ := hinv.suspendSelection
      exact ⟨hinv', hfollows.trans hfollows'⟩
    · exact hdefer
  · rename_i hfew
    refine h.setTask hr fun task _ _ hinv => hinv.switched id hs ?_ (fun _ => ?_) rfl
    · exact hs.imp_right .inl
    · exact not_le.1 hfew

/-! ## Deferrals -/

/-- No task is Deferred that was not before. -/
def NoDeferral (c c' : SchedulerCore) : Prop :=
  ∀ (id : Text) (r' : TaskRuntimeState), c'.taskStates[id]? = some r' → r'.status = .deferred →
    ∃ r, c.taskStates[id]? = some r ∧ r.status = .deferred

/-- A task that becomes Deferred keeps a record of the moment. -/
def DeferralRecorded (c c' : SchedulerCore) : Prop :=
  ∀ (id : Text) (r r' : TaskRuntimeState), c.taskStates[id]? = some r →
    c'.taskStates[id]? = some r' → r.status ≠ .deferred → r'.status = .deferred →
    r'.deferredAtCoverageEpoch = some c'.coverageEpoch ∧
      r'.deferredAtCorpusEpoch = c'.corpusEpoch ∧
      r'.retryAfterSelection = saturatingAdd c'.selectionEpoch 128

theorem NoDeferral.recorded (h : NoDeferral c c') : DeferralRecorded c c' := by
  intro id r r' hr hr' hs hs'
  obtain ⟨r₀, hr₀, hs₀⟩ := h id r' hr' hs'
  rw [hr, Option.some.injEq] at hr₀
  subst hr₀
  exact absurd hs₀ hs

theorem NoDeferral.change (f : Text → TaskRuntimeState → TaskRuntimeState)
    (htasks : ∀ id, c'.taskStates[id]? = (c.taskStates[id]?).map (f id))
    (hf : ∀ id r, c.taskStates[id]? = some r → (f id r).status = .deferred → r.status = .deferred) :
    NoDeferral c c' := by
  intro id r' hr' hs'
  rw [htasks] at hr'
  obtain ⟨r, hr, rfl⟩ := Option.map_eq_some_iff.1 hr'
  exact ⟨r, hr, hf id r hr hs'⟩

theorem NoDeferral.setTask (hr : c.taskStates[id]? = some r)
    (hs : r'.status = .deferred → r.status = .deferred) : NoDeferral c (c.setTask id r') := by
  intro id' r'' hr'' hs''
  rw [SchedulerCore.setTask_taskStates] at hr''
  split at hr''
  · rename_i hid
    subst hid
    rw [Option.some.injEq] at hr''
    subst hr''
    exact ⟨r, hr, hs hs''⟩
  · exact ⟨r'', hr'', hs''⟩

theorem deactivated_deferred (h : r.deactivated.status = .deferred) :
    r.status = .deferred ∧ r.deactivated = r := by
  unfold TaskRuntimeState.deactivated at h ⊢
  split at h
  · cases h
  · rename_i hactive
    exact ⟨h, if_neg hactive⟩

theorem NoDeferral.suspendSelection (c : SchedulerCore) : NoDeferral c c.suspendSelection := by
  refine NoDeferral.change (fun id r => if c.activeTaskId = some id then r.deactivated else r)
    (fun id => ?_) fun id r _ hs => ?_
  · rw [SchedulerCore.suspendSelection_taskStates]
    split
    · rfl
    · simp
  · split at hs
    · exact (deactivated_deferred hs).1
    · exact hs

theorem NoDeferral.transition (ht : Transition c c') : NoDeferral c c' := by
  have hsame : NoDeferral c c := fun id r hr hs => ⟨r, hr, hs⟩
  cases ht with
  | @refreshTask task r hmem hr =>
    refine .setTask hr fun hs => ?_
    have hrefreshed := refreshTask_refreshed c task r
    generalize (c.refreshTask task r).1 = r' at hrefreshed hs
    cases hrefreshed with
    | keep => exact hs
    | block | cover | reactivate | ready => cases hs
  | note hr hnoted => exact .setTask hr fun hs => hnoted.status ▸ hs
  | suspend => exact .suspendSelection c
  | @activate task r activePath matched guideTargetId bestSeedId priority hr hstatus hguide =>
    intro id r' hr' hs'
    rw [SchedulerCore.activateGuide_taskStates] at hr'
    split at hr'
    · obtain ⟨r₀, hr₀, rfl⟩ := Option.map_eq_some_iff.1 hr'
      cases hs'
    · split at hr'
      · obtain ⟨r₀, hr₀, rfl⟩ := Option.map_eq_some_iff.1 hr'
        exact ⟨r₀, hr₀, (deactivated_deferred hs').1⟩
      · exact ⟨r', hr', hs'⟩
  | cover | advanceCoverage | advanceSelection | advanceCorpus | succeed | dropSelection | names =>
    exact hsame

theorem NoDeferral.transitions (ht : Transitions c c') : NoDeferral c c' := by
  induction ht with
  | refl => exact fun id r hr hs => ⟨r, hr, hs⟩
  | tail _ hlast ih =>
    intro id r' hr' hs'
    obtain ⟨r, hr, hs⟩ := NoDeferral.transition hlast id r' hr' hs'
    exact ih id r hr hs

theorem DeferralRecorded.suspendSelection (h : DeferralRecorded c c') :
    DeferralRecorded c c'.suspendSelection := by
  intro id r r' hr hr' hs hs'
  have hstate : c'.taskStates[id]? = some r' := by
    rw [SchedulerCore.suspendSelection_taskStates] at hr'
    split at hr'
    · obtain ⟨r₀, hr₀, rfl⟩ := Option.map_eq_some_iff.1 hr'
      rw [hr₀, (deactivated_deferred hs').2]
    · exact hr'
  have hfixed := c'.suspendSelection_fixedPart
  simp only [SchedulerCore.fixedPart, Prod.mk.injEq] at hfixed
  obtain ⟨-, -, hcoverage, hcorpus, hselection⟩ := hfixed
  rw [hcoverage, hcorpus, hselection]
  exact h id r r' hr hstate hs hs'

theorem Failure.recorded (hf : Failure c id c') : DeferralRecorded c c' := by
  rcases hf with ⟨hr, hs⟩
  rename_i r
  unfold SchedulerCore.recordFailure
  simp only
  split
  · set d : TaskRuntimeState := { r with
      attempts := saturatingAdd r.attempts 1
      failedAttempts := saturatingAdd r.failedAttempts 1
      status := .deferred
      deferredAtCoverageEpoch := some c.coverageEpoch
      deferredAtCorpusEpoch := c.corpusEpoch
      retryAfterSelection := saturatingAdd c.selectionEpoch 128 } with hd
    have hdefer : DeferralRecorded c (c.setTask id d) := by
      intro id' r₁ r₂ h₁ h₂ hs₁ hs₂
      rw [SchedulerCore.setTask_taskStates] at h₂
      split at h₂
      · rw [Option.some.injEq] at h₂
        subst h₂
        exact ⟨rfl, rfl, rfl⟩
      · rw [h₁, Option.some.injEq] at h₂
        subst h₂
        exact absurd hs₂ hs₁
    split
    · exact hdefer.suspendSelection
    · exact hdefer
  · exact NoDeferral.recorded (.setTask hr fun hs' => hs')

/-! ## Runs -/

theorem TaskInv.initial (c : SchedulerCore) (mappedTargets : List Text) (task : SemanticTask) :
    TaskInv c task { status := SemanticRuntimeMetadata.initialStatus mappedTargets task } := by
  have hfailed : 0 < deferAfterFailures := by decide
  unfold SemanticRuntimeMetadata.initialStatus
  split
  · exact ⟨fun _ => hfailed, by simp, by simp, by simp⟩
  · split
    · rename_i hpath
      exact ⟨fun _ => hfailed, fun _ => by simpa using hpath, by simp, by simp⟩
    · rename_i hpath
      exact ⟨fun _ => hfailed, by simp, fun _ _ => by simpa using hpath, by simp⟩

theorem LifecycleInv.new {plan : SemanticTaskPlan} (h : plan.OneTaskPerId)
    (mappedTargets : List Text) :
    LifecycleInv (SemanticRuntimeMetadata.new plan mappedTargets).toSchedulerCore := by
  refine ⟨h, fun id r hr => ?_, Nat.zero_le _, Nat.zero_le _, Nat.zero_le _⟩
  obtain ⟨task, hmem, hid, rfl⟩ := SemanticRuntimeMetadata.new_taskStates hr
  exact ⟨task, hmem, hid, .initial _ mappedTargets task⟩

theorem LifecycleInv.step {s : SemanticRuntimeMetadata} (h : LifecycleInv s.toSchedulerCore)
    (op : Op) : LifecycleInv (step s op).toSchedulerCore ∧
      Follows s.toSchedulerCore (Semantic.step s op).toSchedulerCore := by
  rcases step_cases s op with ht | ⟨id, hf⟩
  · exact h.transitions ht
  · exact h.failure hf

theorem LifecycleInv.foldl_step {s : SemanticRuntimeMetadata} (h : LifecycleInv s.toSchedulerCore)
    (ops : List Op) : LifecycleInv (ops.foldl Semantic.step s).toSchedulerCore ∧
      Follows s.toSchedulerCore (ops.foldl Semantic.step s).toSchedulerCore := by
  induction ops generalizing s with
  | nil => exact ⟨h, .refl _⟩
  | cons op ops ih =>
    obtain ⟨hinv, hfollows⟩ := h.step op
    obtain ⟨hinv', hfollows'⟩ := ih hinv
    exact ⟨hinv', hfollows.trans hfollows'⟩

theorem step_deferralRecorded (s : SemanticRuntimeMetadata) (op : Op) :
    DeferralRecorded s.toSchedulerCore (step s op).toSchedulerCore := by
  rcases step_cases s op with ht | ⟨id, hf⟩
  · exact (NoDeferral.transitions ht).recorded
  · exact hf.recorded

/-- **The lifecycle of tasks over a run.**  After any operations a task that is Ready or Active has
failed less than three times; after any more operations Covered and Unmapped tasks still are, a
Deferred task is unless it has been released, and coverage, epochs and best prefixes have only
grown; and a task that an operation defers keeps the epochs of that moment. -/
theorem run_lifecycle (plan : SemanticTaskPlan) (mappedTargets : List Text)
    (h : plan.OneTaskPerId) (ops more : List Op) :
    (∀ (id : Text) (r : TaskRuntimeState),
      (run plan mappedTargets ops).taskStates[id]? = some r →
      r.status = .ready ∨ r.status = .active → r.failedAttempts < 3) ∧
    Follows (run plan mappedTargets ops).toSchedulerCore
      (run plan mappedTargets (ops ++ more)).toSchedulerCore ∧
    ∀ op, DeferralRecorded (run plan mappedTargets ops).toSchedulerCore
      (run plan mappedTargets (ops ++ [op])).toSchedulerCore := by
  have hinv : LifecycleInv (run plan mappedTargets ops).toSchedulerCore :=
    ((LifecycleInv.new h mappedTargets).foldl_step ops).1
  have happend (more : List Op) : run plan mappedTargets (ops ++ more) =
      more.foldl step (run plan mappedTargets ops) := List.foldl_append
  refine ⟨fun id r hr hs => ?_, ?_, fun op => ?_⟩
  · obtain ⟨task, -, -, ht⟩ := hinv.tasks id r hr
    exact ht.failures hs
  · rw [happend]
    exact (hinv.foldl_step more).2
  · rw [happend]
    exact step_deferralRecorded _ op

/-- A plan with one task, which reaches its target over two waypoints. -/
def overflowPlan : SemanticTaskPlan where
  tasks := [{
    taskId := "task-overflow".toList
    taskKind := "violation".toList
    pou := "MAIN".toList
    terminalTargetId := "overflow".toList
    orderedWaypoints := ["guard".toList, "overflow".toList] }]

/-- The window of its first guide. -/
def overflowFailure : Op :=
  .recordBudgetFailure "task-overflow".toList
    (SemanticRuntimeMetadata.guideIdentity "ordered_waypoints".toList 0 "guard".toList)

theorem overflowPlan_oneTaskPerId : overflowPlan.OneTaskPerId := by
  intro task hmem task' hmem' _
  simp only [overflowPlan, List.mem_singleton] at hmem hmem'
  rw [hmem, hmem']

theorem run_lifecycle_overflow :
    let ops := [overflowFailure, overflowFailure]
    let more := [overflowFailure, .tickSelection]
    let mapped := ["guard".toList, "overflow".toList]
    (∀ (id : Text) (r : TaskRuntimeState),
      (run overflowPlan mapped ops).taskStates[id]? = some r →
      r.status = .ready ∨ r.status = .active → r.failedAttempts < 3) ∧
    Follows (run overflowPlan mapped ops).toSchedulerCore
      (run overflowPlan mapped (ops ++ more)).toSchedulerCore ∧
    ∀ op, DeferralRecorded (run overflowPlan mapped ops).toSchedulerCore
      (run overflowPlan mapped (ops ++ [op])).toSchedulerCore :=
  run_lifecycle overflowPlan _ overflowPlan_oneTaskPerId _ _

/-- The same plan, with a second task of this id that has no path to its target. -/
def sharedIdPlan : SemanticTaskPlan where
  tasks := { taskId := "task-overflow".toList
             taskKind := "violation".toList
             pou := "MAIN".toList
             terminalTargetId := "underflow".toList } :: overflowPlan.tasks

/-- Two tasks of one id share a state: `refresh_states` blocks it for the task without a path and then
makes it Ready for the other one, with the failures that had deferred it. -/
theorem not_lifecycle_sharedId : ¬∀ (plan : SemanticTaskPlan) (mappedTargets : List Text) (ops : List Op)
    (id : Text) (r : TaskRuntimeState), (run plan mappedTargets ops).taskStates[id]? = some r →
      r.status = .ready ∨ r.status = .active → r.failedAttempts < 3 := by
  intro h
  let ops := [overflowFailure, overflowFailure, overflowFailure, .refreshStates]
  have hstate : ((run sharedIdPlan ["guard".toList, "overflow".toList] ops).taskStates["task-overflow".toList]?).map
      (fun r => (r.status, r.failedAttempts)) = some (.ready, 3) := by decide +kernel
  obtain ⟨r, hr, hpair⟩ := Option.map_eq_some_iff.1 hstate
  obtain ⟨hstatus, hfailed⟩ := Prod.mk.inj hpair
  have hlt := h _ _ ops _ r hr (.inl hstatus)
  rw [hfailed] at hlt
  exact absurd hlt (lt_irrefl 3)

end SemantiST.Semantic
