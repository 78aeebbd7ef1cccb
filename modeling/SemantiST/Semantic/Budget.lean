import SemantiST.Mutation.Records
import SemantiST.Semantic.CreditRuns

/-!
# The execution budget of a guide

`SemanticTaskBudgetStage`: between two visits of the stage the executions are charged to the guide
that was current when the stage was left. A guide that has used up its budget without a new success
costs its task a failed attempt.
-/

namespace SemantiST.Semantic

open Lib

open Mutation (TargetContext)

/-! ## The stage -/

structure SemanticBudgetWindows where
  lastGuideTargetId : Option Text := none
  lastAccountedExecutions : ℕ := 0
  executionsByGuide : Std.ExtTreeMap Text ℕ compare := ∅
  successesByGuide : Std.ExtTreeMap Text ℕ compare := ∅

/-- The executions charged to a guide. -/
def SemanticBudgetWindows.count (w : SemanticBudgetWindows) (key : Text) : ℕ :=
  (w.executionsByGuide[key]?).getD 0

/-- The successes of a guide that have been seen. -/
def SemanticBudgetWindows.recorded (w : SemanticBudgetWindows) (key : Text) : ℕ :=
  (w.successesByGuide[key]?).getD 0

structure SemanticTaskBudgetStage where
  windows : SemanticBudgetWindows := {}
  budget : ℕ
  budget_pos : 0 < budget
  budget_le : budget ≤ u64Max

/-- What the stage reads and changes of the fuzzer state. -/
structure FuzzerState where
  executions : ℕ
  context : Option TargetContext
  runtime : Option SemanticRuntimeMetadata
  windows : Option SemanticBudgetWindows

/-- `active_guide_budget_key`. -/
def SelectionFields.activeGuideBudgetKey (f : SelectionFields) : Option Text := do
  let taskId ← f.activeTaskId
  let pathKey ← f.activePathKey
  let index ← f.activeGuideIndex
  let target ← f.guideTargetId
  return taskId ++ nul :: SemanticRuntimeMetadata.guideIdentity pathKey index target

namespace SemanticTaskBudgetStage

def new (budget : UInt64) : SemanticTaskBudgetStage where
  budget := max budget.toNat 1
  budget_pos := by omega
  budget_le := by
    have := budget.toNat_lt
    unfold u64Max
    omega

def accountExecutionProgress (stage : SemanticTaskBudgetStage) (executions : ℕ)
    (currentGuide : Option Text) : ℕ × SemanticTaskBudgetStage :=
  let executionDelta := executions - stage.windows.lastAccountedExecutions
  let executionsByGuide := match stage.windows.lastGuideTargetId with
    | some previousGuide =>
      stage.windows.executionsByGuide.insert previousGuide
        (saturatingAdd (stage.windows.count previousGuide) executionDelta)
    | none => stage.windows.executionsByGuide
  let stage := { stage with windows := { stage.windows with
    executionsByGuide := executionsByGuide
    lastAccountedExecutions := executions
    lastGuideTargetId := currentGuide } }
  ((currentGuide.map stage.windows.count).getD 0, stage)

def settleExecutionWindow (stage : SemanticTaskBudgetStage) (executions : ℕ)
    (currentGuide : Option Text) (previousSuccesses : ℕ) : Option Text × SemanticTaskBudgetStage :=
  let previous := stage.windows.lastGuideTargetId
  let stage := (stage.accountExecutionProgress executions currentGuide).2
  match previous with
  | none => (none, stage)
  | some previous =>
    let recorded := stage.windows.recorded previous
    if recorded < previousSuccesses then
      (none, { stage with windows := { stage.windows with
        successesByGuide := stage.windows.successesByGuide.insert previous previousSuccesses
        executionsByGuide := stage.windows.executionsByGuide.insert previous 0 } })
    else
      -- the entry is there from now on
      let stage := { stage with windows := { stage.windows with
        successesByGuide := stage.windows.successesByGuide.insert previous recorded } }
      if stage.budget ≤ stage.windows.count previous then
        (some previous, { stage with windows := { stage.windows with
          executionsByGuide := stage.windows.executionsByGuide.insert previous 0 } })
      else (none, stage)

/-- The key of the selected guide, when the seed was assigned to it. -/
def assignedGuideKey (state : FuzzerState) : Option Text := do
  let context ← state.context
  let runtime ← state.runtime
  if runtime.activeTaskId = context.semanticTaskId ∧ runtime.guideTargetId = context.targetId then
    runtime.activeGuideBudgetKey
  else none

/-- The successes of the guide with this key. -/
def successesOf (state : FuzzerState) (key : Option Text) : ℕ :=
  (do
    let key ← key
    let (task, guide) ← splitOnce nul key
    let runtime ← state.runtime
    return runtime.guideSuccessCount task guide : Option ℕ).getD 0

/-- The windows that are saved in the state are taken up. -/
def resume (stage : SemanticTaskBudgetStage) (state : FuzzerState) : SemanticTaskBudgetStage :=
  match state.windows with
  | some saved => { stage with windows := saved }
  | none => stage

/-- The first half of `perform`, up to the settled window. -/
def settle (stage : SemanticTaskBudgetStage) (state : FuzzerState) :
    Option Text × SemanticTaskBudgetStage :=
  let stage := stage.resume state
  stage.settleExecutionWindow state.executions (assignedGuideKey state)
    (successesOf state stage.windows.lastGuideTargetId)

/-- An expired window is a failed attempt of the task that ran. -/
def chargeExpired (expired : Option Text) (runtime : Option SemanticRuntimeMetadata) :
    Option SemanticRuntimeMetadata :=
  match expired.bind (splitOnce nul) with
  | some (task, guide) => runtime.map fun runtime => runtime.recordBudgetFailure task guide
  | none => runtime

/-- No task is selected. -/
def unselected (runtime : Option SemanticRuntimeMetadata) : Bool :=
  runtime.any fun runtime => runtime.activeTaskId.isNone

def perform (stage : SemanticTaskBudgetStage) (state : FuzzerState) :
    SemanticTaskBudgetStage × FuzzerState :=
  let settled := stage.settle state
  let runtime := chargeExpired settled.1 state.runtime
  let stage := settled.2
  let windows :=
    if unselected runtime then { stage.windows with lastGuideTargetId := none } else stage.windows
  ({ stage with windows := {} },
    { state with
      runtime := runtime
      context := if unselected runtime then some {} else state.context
      windows := some windows })

end SemanticTaskBudgetStage

/-! ## Keys -/

/-- The key under which the executions of a guide are counted. -/
def Guide.budgetKey (g : Guide) : Text := g.taskId ++ nul :: g.identity

/-- A key names the task and the guide. -/
theorem splitOnce_budgetKey {g : Guide} (htask : nul ∉ g.taskId) :
    splitOnce nul g.budgetKey = some (g.taskId, g.identity) := splitOnce_append htask

theorem SelectionFields.activeGuideBudgetKey_eq (f : SelectionFields) :
    f.activeGuideBudgetKey = f.guide.map Guide.budgetKey := by
  unfold SelectionFields.activeGuideBudgetKey SelectionFields.guide
  cases f.activeTaskId with
  | none => rfl
  | some taskId =>
    cases f.activePathKey with
    | none => rfl
    | some pathKey =>
      cases f.activeGuideIndex with
      | none => rfl
      | some index =>
        cases f.guideTargetId with
        | none => rfl
        | some target => rfl

/-- The selected guide, when the seed was assigned to it. -/
def FuzzerState.guide (state : FuzzerState) : Option Guide := do
  let context ← state.context
  let runtime ← state.runtime
  if runtime.activeTaskId = context.semanticTaskId ∧ runtime.guideTargetId = context.targetId then
    runtime.guide
  else none

/-! ## Settling one window -/

namespace SemanticTaskBudgetStage

theorem assignedGuideKey_eq (state : FuzzerState) :
    assignedGuideKey state = state.guide.map Guide.budgetKey := by
  unfold assignedGuideKey FuzzerState.guide
  cases state.context with
  | none => rfl
  | some context =>
    cases state.runtime with
    | none => rfl
    | some runtime =>
      simp only [Option.bind_eq_bind, Option.bind_some]
      split
      · exact runtime.activeGuideBudgetKey_eq
      · rfl

/-- What settling a window does: the delta is charged to the previous guide alone, a new success or
the expiry clears its count, and it expires exactly when its budget is used up without a new
success. -/
structure SettledWindow (stage : SemanticTaskBudgetStage) (executions : ℕ)
    (currentGuide : Option Text) (previousSuccesses : ℕ)
    (result : Option Text × SemanticTaskBudgetStage) : Prop where
  budget : result.2.budget = stage.budget
  guide : result.2.windows.lastGuideTargetId = currentGuide
  accounted : result.2.windows.lastAccountedExecutions = executions
  expired : ∀ key, result.1 = some key ↔ stage.windows.lastGuideTargetId = some key ∧
    previousSuccesses ≤ stage.windows.recorded key ∧
    stage.budget ≤ stage.windows.count key + (executions - stage.windows.lastAccountedExecutions)
  count : ∀ key, result.2.windows.count key =
    if stage.windows.lastGuideTargetId = some key then
      if stage.windows.recorded key < previousSuccesses ∨ result.1 = some key then 0
      else stage.windows.count key + (executions - stage.windows.lastAccountedExecutions)
    else stage.windows.count key
  recorded : ∀ key, result.2.windows.recorded key =
    if stage.windows.lastGuideTargetId = some key then
      max previousSuccesses (stage.windows.recorded key)
    else stage.windows.recorded key

theorem count_insert (w : SemanticBudgetWindows) (key key' : Text) (n : ℕ) :
    ({ w with executionsByGuide := w.executionsByGuide.insert key n } : SemanticBudgetWindows).count
      key' = if key = key' then n else w.count key' := by
  unfold SemanticBudgetWindows.count
  rw [Std.ExtTreeMap.getElem?_insert]
  by_cases h : key = key'
  · simp [h]
  · simp [h]

theorem recorded_insert (w : SemanticBudgetWindows) (key key' : Text) (n : ℕ) :
    ({ w with successesByGuide := w.successesByGuide.insert key n } : SemanticBudgetWindows).recorded
      key' = if key = key' then n else w.recorded key' := by
  unfold SemanticBudgetWindows.recorded
  rw [Std.ExtTreeMap.getElem?_insert]
  by_cases h : key = key'
  · simp [h]
  · simp [h]

/-- The delta is charged to the previous guide and to no other. -/
theorem accountExecutionProgress_count (stage : SemanticTaskBudgetStage) (executions : ℕ)
    (currentGuide : Option Text) (key : Text) :
    (stage.accountExecutionProgress executions currentGuide).2.windows.count key =
      if stage.windows.lastGuideTargetId = some key then
        saturatingAdd (stage.windows.count key)
          (executions - stage.windows.lastAccountedExecutions)
      else stage.windows.count key := by
  unfold accountExecutionProgress
  cases stage.windows.lastGuideTargetId with
  | none => rfl
  | some previous =>
    refine (count_insert stage.windows previous key _).trans ?_
    by_cases h : previous = key
    · subst h
      rw [if_pos rfl, if_pos rfl]
    · rw [if_neg h, if_neg fun h' => h (Option.some.inj h')]

theorem settleExecutionWindow_spec (stage : SemanticTaskBudgetStage) (executions : ℕ)
    (currentGuide : Option Text) (previousSuccesses : ℕ) :
    SettledWindow stage executions currentGuide previousSuccesses
      (stage.settleExecutionWindow executions currentGuide previousSuccesses) := by
  have hcharged := stage.accountExecutionProgress_count executions currentGuide
  have hrecorded : (stage.accountExecutionProgress executions currentGuide).2.windows.recorded =
    stage.windows.recorded := rfl
  unfold settleExecutionWindow
  have hbudget : (stage.accountExecutionProgress executions currentGuide).2.budget = stage.budget := rfl
  have hguide : (stage.accountExecutionProgress executions currentGuide).2.windows.lastGuideTargetId =
    currentGuide := rfl
  have haccounted : (stage.accountExecutionProgress executions
    currentGuide).2.windows.lastAccountedExecutions = executions := rfl
  generalize (stage.accountExecutionProgress executions currentGuide).2 = charged at *
  have hle := stage.budget_le
  cases hlast : stage.windows.lastGuideTargetId with
  | none =>
    simp only [hlast, reduceCtorEq, if_false] at hcharged
    exact ⟨hbudget, hguide, haccounted, fun key => by simp [hlast], fun key => by simp [hlast, hcharged],
      fun key => by simp [hlast, hrecorded]⟩
  | some previous =>
    simp only [hlast, Option.some.injEq] at hcharged
    dsimp only
    have hprevious := hcharged previous
    rw [if_pos rfl] at hprevious
    unfold saturatingAdd at hprevious hcharged
    split
    · rename_i hnew
      rw [hrecorded] at hnew
      refine ⟨hbudget, hguide, haccounted, fun key => ?_, fun key => ?_, fun key => ?_⟩
      · rw [hlast]
        constructor
        · rintro ⟨⟩
        · rintro ⟨⟨⟩, hseen, -⟩
          omega
      · refine (count_insert charged.windows previous key 0).trans ?_
        rw [hlast]
        by_cases h : previous = key
        · subst h
          rw [if_pos rfl, if_pos rfl, if_pos (.inl hnew)]
        · rw [if_neg h, if_neg fun h' => h (Option.some.inj h'), hcharged, if_neg h]
      · refine (recorded_insert charged.windows previous key previousSuccesses).trans ?_
        rw [hlast, hrecorded]
        by_cases h : previous = key
        · subst h
          rw [if_pos rfl, if_pos rfl]
          omega
        · rw [if_neg h, if_neg fun h' => h (Option.some.inj h')]
    · rename_i hnew
      rw [hrecorded] at hnew
      have hrecorded' : ∀ key, (if previous = key then charged.windows.recorded previous else
          charged.windows.recorded key) = if some previous = some key then
            max previousSuccesses (stage.windows.recorded key) else stage.windows.recorded key := by
        intro key
        rw [hrecorded]
        by_cases h : previous = key
        · subst h
          rw [if_pos rfl, if_pos rfl]
          omega
        · rw [if_neg h, if_neg fun h' => h (Option.some.inj h')]
      split
      · rename_i hexpired
        have hused : stage.budget ≤ stage.windows.count previous +
            (executions - stage.windows.lastAccountedExecutions) := by
          have hexpired : charged.budget ≤ charged.windows.count previous := hexpired
          omega
        refine ⟨hbudget, hguide, haccounted, fun key => ?_, fun key => ?_, fun key => ?_⟩
        · rw [hlast]
          constructor
          · rintro ⟨⟩
            exact ⟨rfl, by omega, hused⟩
          · exact fun h => h.1
        · refine (count_insert charged.windows previous key 0).trans ?_
          rw [hlast]
          by_cases h : previous = key
          · subst h
            rw [if_pos rfl, if_pos rfl, if_pos (.inr rfl)]
          · rw [if_neg h, if_neg fun h' => h (Option.some.inj h'), hcharged, if_neg h]
        · rw [hlast, ← hrecorded']
          exact recorded_insert charged.windows previous key _
      · rename_i hexpired
        have hleft : stage.windows.count previous +
            (executions - stage.windows.lastAccountedExecutions) < stage.budget := by
          have hexpired : ¬ charged.budget ≤ charged.windows.count previous := hexpired
          omega
        refine ⟨hbudget, hguide, haccounted, fun key => ?_, fun key => ?_, fun key => ?_⟩
        · rw [hlast]
          constructor
          · rintro ⟨⟩
          · rintro ⟨⟨⟩, -, hused⟩
            omega
        · refine (hcharged key).trans ?_
          rw [hlast]
          by_cases h : previous = key
          · subst h
            rw [if_pos rfl, if_pos rfl, if_neg (by simp; omega)]
            omega
          · rw [if_neg h, if_neg fun h' => h (Option.some.inj h')]
        · rw [hlast, ← hrecorded']
          exact recorded_insert charged.windows previous key _

end SemanticTaskBudgetStage

/-! ## Runs -/

/-- What happened between two visits: the guide that was current when the stage was left, the
executions since then, the successes it has now and the key of an expired budget. -/
structure Window where
  guide : Option Guide
  amount : ℕ
  successes : ℕ
  expired : Option Text

def Window.key (w : Window) : Option Text := w.guide.map Guide.budgetKey

/-- The most successes that a window has shown of the guide, newest window first. -/
def bestSuccesses (key : Text) : List Window → ℕ
  | [] => 0
  | w :: earlier =>
    if w.key = some key then max w.successes (bestSuccesses key earlier)
    else bestSuccesses key earlier

/-- The executions of the guide since its last success or expiry, newest window first. -/
def spent (key : Text) : List Window → ℕ
  | [] => 0
  | w :: earlier =>
    if w.key = some key then
      if bestSuccesses key earlier < w.successes ∨ w.expired = some key then 0
      else spent key earlier + w.amount
    else spent key earlier

/-- What a visit finds in the fuzzer state; the stage decides none of it. -/
structure Moment where
  executions : ℕ
  context : Option TargetContext
  runtime : Option SemanticRuntimeMetadata

/-- The visits so far: the stage and its saved windows, the guide and the executions when it was
left, and the windows, newest first. -/
structure Visits where
  stage : SemanticTaskBudgetStage
  saved : Option SemanticBudgetWindows := none
  guide : Option Guide := none
  executions : ℕ := 0
  log : List Window := []

namespace Visits

def state (v : Visits) (m : Moment) : FuzzerState where
  executions := m.executions
  context := m.context
  runtime := m.runtime
  windows := v.saved

/-- The stage performs once more. -/
def visit (v : Visits) (m : Moment) : Visits :=
  let result := v.stage.perform (v.state m)
  { stage := result.1
    saved := result.2.windows
    guide := result.2.guide
    executions := m.executions
    log := {
      guide := v.guide
      amount := m.executions - v.executions
      successes := SemanticTaskBudgetStage.successesOf (v.state m) (v.guide.map Guide.budgetKey)
      expired := (v.stage.settle (v.state m)).1 } :: v.log }

/-- The visits at these moments. -/
def run (budget : UInt64) (moments : List Moment) : Visits :=
  moments.foldl visit { stage := .new budget }

/-- The windows that count from here on. -/
def windows (v : Visits) : SemanticBudgetWindows := v.saved.getD v.stage.windows

/-- The windows of the stage say what the log says. -/
structure Balanced (budget : ℕ) (v : Visits) : Prop where
  limit : v.stage.budget = budget
  current : v.windows.lastGuideTargetId = v.guide.map Guide.budgetKey
  accounted : v.windows.lastAccountedExecutions = v.executions
  count : ∀ key, v.windows.count key = spent key v.log
  below : ∀ key, spent key v.log < budget
  recorded : ∀ key, v.windows.recorded key = bestSuccesses key v.log

end Visits

namespace SemanticTaskBudgetStage

theorem resume_windows (stage : SemanticTaskBudgetStage) (state : FuzzerState) :
    (stage.resume state).windows = state.windows.getD stage.windows := by
  unfold resume
  cases state.windows <;> rfl

theorem resume_budget (stage : SemanticTaskBudgetStage) (state : FuzzerState) :
    (stage.resume state).budget = stage.budget := by
  unfold resume
  cases state.windows <;> rfl

/-- The failure of an expired budget leaves the selection as it is or ends it. -/
theorem chargeExpired_fields (expired : Option Text) (runtime : SemanticRuntimeMetadata) :
    ∃ runtime', chargeExpired expired (some runtime) = some runtime' ∧
      (runtime'.toSelectionFields = runtime.toSelectionFields ∨ runtime'.toSelectionFields = {}) := by
  unfold chargeExpired
  split
  · rename_i task guide _
    exact ⟨_, rfl, (runtime.recordBudgetFailure_credit task guide).1⟩
  · exact ⟨runtime, rfl, .inl rfl⟩

theorem perform_runtime (stage : SemanticTaskBudgetStage) (state : FuzzerState) :
    (stage.perform state).2.runtime = chargeExpired (stage.settle state).1 state.runtime := rfl

theorem perform_context (stage : SemanticTaskBudgetStage) (state : FuzzerState) :
    (stage.perform state).2.context =
      if unselected (chargeExpired (stage.settle state).1 state.runtime) then some {}
      else state.context := rfl

theorem perform_count (stage : SemanticTaskBudgetStage) (state : FuzzerState) (key : Text) :
    ((stage.perform state).2.windows.getD (stage.perform state).1.windows).count key =
      (stage.settle state).2.windows.count key := by
  unfold perform
  dsimp only [Option.getD_some]
  split <;> rfl

theorem perform_recorded (stage : SemanticTaskBudgetStage) (state : FuzzerState) (key : Text) :
    ((stage.perform state).2.windows.getD (stage.perform state).1.windows).recorded key =
      (stage.settle state).2.windows.recorded key := by
  unfold perform
  dsimp only [Option.getD_some]
  split <;> rfl

theorem perform_accounted (stage : SemanticTaskBudgetStage) (state : FuzzerState) :
    ((stage.perform state).2.windows.getD
      (stage.perform state).1.windows).lastAccountedExecutions =
        (stage.settle state).2.windows.lastAccountedExecutions := by
  unfold perform
  dsimp only [Option.getD_some]
  split <;> rfl

theorem perform_current (stage : SemanticTaskBudgetStage) (state : FuzzerState) :
    ((stage.perform state).2.windows.getD (stage.perform state).1.windows).lastGuideTargetId =
      if unselected (stage.perform state).2.runtime then none
      else (stage.settle state).2.windows.lastGuideTargetId := by
  rw [perform_runtime]
  unfold perform
  dsimp only [Option.getD_some]
  split <;> rfl

/-- **The guide that a visit leaves**: the assigned one, unless no task is selected any more. -/
theorem perform_guide (stage : SemanticTaskBudgetStage) (state : FuzzerState) :
    (stage.perform state).2.guide =
      if unselected (stage.perform state).2.runtime then none else state.guide := by
  unfold FuzzerState.guide
  rw [perform_context, perform_runtime]
  cases hruntime : state.runtime with
  | none =>
    have hcharged : chargeExpired (stage.settle state).1 none = none := by
      unfold chargeExpired
      split <;> rfl
    rw [hcharged]
    cases state.context <;> rfl
  | some runtime =>
    obtain ⟨runtime', hcharged, hfields⟩ := chargeExpired_fields (stage.settle state).1 runtime
    rw [hcharged, unselected, Option.any_some]
    cases htask : runtime'.activeTaskId with
    | none =>
      have hguide : runtime'.guide = none := by
        unfold SelectionFields.guide
        rw [htask]
        rfl
      simp [hguide]
    | some taskId =>
      obtain hfields | hfields := hfields
      · simp only [Option.isNone_some, Bool.false_eq_true, if_false]
        simp only [Option.bind_eq_bind, Option.bind_some, hfields]
      · rw [hfields] at htask
        cases htask

end SemanticTaskBudgetStage

namespace Visits

open SemanticTaskBudgetStage

variable {budget : ℕ} {v : Visits}

theorem balanced_new (budget : UInt64) :
    Balanced (max budget.toNat 1) { stage := .new budget } where
  limit := rfl
  current := rfl
  accounted := rfl
  count _ := rfl
  below _ := by
    unfold spent
    omega
  recorded _ := rfl

/-- The window that a visit settles. -/
theorem Balanced.settled (h : v.Balanced budget) (m : Moment) :
    SettledWindow (v.stage.resume (v.state m)) m.executions (assignedGuideKey (v.state m))
      (successesOf (v.state m) (v.guide.map Guide.budgetKey)) (v.stage.settle (v.state m)) := by
  have hwindows : (v.stage.resume (v.state m)).windows = v.windows := v.stage.resume_windows (v.state m)
  have hspec := settleExecutionWindow_spec (v.stage.resume (v.state m)) m.executions
    (assignedGuideKey (v.state m)) (successesOf (v.state m) (v.guide.map Guide.budgetKey))
  unfold settle
  dsimp only
  rw [hwindows, h.current]
  exact hspec

/-- The window expires exactly when the guide has used up its budget without a new success. -/
theorem Balanced.expired_iff (h : v.Balanced budget) (m : Moment) (key : Text) :
    (v.stage.settle (v.state m)).1 = some key ↔ v.guide.map Guide.budgetKey = some key ∧
      successesOf (v.state m) (v.guide.map Guide.budgetKey) ≤ bestSuccesses key v.log ∧
      budget ≤ spent key v.log + (m.executions - v.executions) := by
  have hexpired := (h.settled m).expired key
  have hwindows : (v.stage.resume (v.state m)).windows = v.windows := v.stage.resume_windows (v.state m)
  rw [hwindows, resume_budget, h.limit, h.current, h.accounted, h.count, h.recorded] at hexpired
  exact hexpired

/-- A visit keeps the windows balanced. -/
theorem Balanced.visit (h : v.Balanced budget) (m : Moment) : (v.visit m).Balanced budget := by
  have hsettled := h.settled m
  have hwindows : (v.stage.resume (v.state m)).windows = v.windows := v.stage.resume_windows (v.state m)
  have hexpired := h.expired_iff m
  have hcount : ∀ key, (v.visit m).windows.count key = spent key (v.visit m).log := by
    intro key
    refine (perform_count v.stage (v.state m) key).trans ((hsettled.count key).trans ?_)
    rw [hwindows, h.current, h.accounted, h.count, h.recorded]
    rfl
  refine ⟨?_, ?_, ?_, hcount, fun key => ?_, fun key => ?_⟩
  · exact (hsettled.budget.trans (resume_budget _ _)).trans h.limit
  · have hguide := perform_guide v.stage (v.state m)
    refine (perform_current v.stage (v.state m)).trans ?_
    refine .trans ?_ (congrArg (Option.map Guide.budgetKey) hguide).symm
    rw [hsettled.guide, assignedGuideKey_eq]
    split <;> rfl
  · exact (perform_accounted v.stage (v.state m)).trans hsettled.accounted
  · have hbelow := h.below key
    have hkey := hexpired key
    simp only [Visits.visit, spent, Window.key]
    split
    · rename_i hran
      split
      · omega
      · rename_i hkept
        rw [hkey] at hkept
        by_contra hused
        exact hkept (.inr ⟨hran, by omega, by omega⟩)
    · exact hbelow
  · refine (perform_recorded v.stage (v.state m) key).trans ((hsettled.recorded key).trans ?_)
    rw [hwindows, h.current, h.recorded]
    rfl

/-- Every window of the log expires exactly when its guide has used up the budget. -/
def Settled (budget : ℕ) (log : List Window) : Prop :=
  ∀ w earlier, w :: earlier <:+ log → ∀ key, w.expired = some key ↔
    w.key = some key ∧ w.successes ≤ bestSuccesses key earlier ∧ budget ≤ spent key earlier + w.amount

/-- The log of a run is settled. -/
theorem run_settled (budget : UInt64) (moments : List Moment) :
    (run budget moments).Balanced (max budget.toNat 1) ∧
      Settled (max budget.toNat 1) (run budget moments).log := by
  induction moments using List.reverseRecOn with
  | nil =>
    refine ⟨balanced_new budget, fun w earlier hsuffix => ?_⟩
    exact absurd (List.suffix_nil.1 hsuffix) (List.cons_ne_nil _ _)
  | append_singleton moments m ih =>
    unfold run
    rw [List.foldl_append]
    refine ⟨ih.1.visit m, fun w earlier hsuffix key => ?_⟩
    obtain heq | hsuffix := List.suffix_cons_iff.1 hsuffix
    · obtain ⟨rfl, rfl⟩ := List.cons.inj heq
      exact ih.1.expired_iff m key
    · exact ih.2 w earlier hsuffix key

/-- The executions are charged once: the amounts add up to the counter, which never goes down. -/
theorem run_amounts (budget : UInt64) (moments : List Moment)
    (hmonotone : (moments.map Moment.executions).Pairwise (· ≤ ·)) :
    ((run budget moments).log.map Window.amount).sum = (run budget moments).executions := by
  induction moments using List.reverseRecOn with
  | nil => rfl
  | append_singleton moments m ih =>
    rw [List.map_append, List.pairwise_append] at hmonotone
    have hsum := ih hmonotone.1
    have hlast : (run budget moments).executions ≤ m.executions := by
      induction moments using List.reverseRecOn with
      | nil => exact Nat.zero_le _
      | append_singleton moments m' _ =>
        unfold run
        rw [List.foldl_append]
        exact hmonotone.2.2 _ (List.mem_map_of_mem (List.mem_append_right _ List.mem_cons_self)) _
          List.mem_cons_self
    unfold run at hsum hlast ⊢
    rw [List.foldl_append]
    simp only [List.foldl_cons, List.foldl_nil, visit, List.map_cons, List.sum_cons]
    omega

/-- **The budget windows of the guides**: at every moment each counter is below the budget and holds
what the guide has spent since its last success or expiry, where the executions between two visits
belong to the guide that the first of them left and each of them is counted once. A window expires
with a key exactly when its guide has spent the budget without a new success, and the key of a task
whose id holds no NUL splits into the task and the identity of the guide. -/
theorem run_budgetWindows (budget : UInt64) (moments : List Moment) :
    (∀ key, (run budget moments).windows.count key < (run budget moments).stage.budget) ∧
      (∀ key, (run budget moments).windows.count key = spent key (run budget moments).log) ∧
      ((moments.map Moment.executions).Pairwise (· ≤ ·) →
        ((run budget moments).log.map Window.amount).sum = (run budget moments).executions) ∧
      Settled (run budget moments).stage.budget (run budget moments).log ∧
      ∀ w ∈ (run budget moments).log, ∀ key, w.expired = some key → ∃ g, w.guide = some g ∧
        (nul ∉ g.taskId → splitOnce nul key = some (g.taskId, g.identity)) := by
  obtain ⟨hbalanced, hsettled⟩ := run_settled budget moments
  rw [hbalanced.limit]
  refine ⟨fun key => ?_, hbalanced.count, run_amounts budget moments, hsettled, fun w hw key hkey => ?_⟩
  · rw [hbalanced.count]
    exact hbalanced.below key
  · obtain ⟨later, earlier, hlog⟩ := List.append_of_mem hw
    obtain ⟨hran, -⟩ := (hsettled w earlier ⟨later, hlog.symm⟩ key).1 hkey
    obtain ⟨g, hguide, rfl⟩ := Option.map_eq_some_iff.1 hran
    exact ⟨g, hguide, splitOnce_budgetKey⟩

/-- A runtime whose guide is the only target of the only path of a task. -/
def guidedRuntime : SemanticRuntimeMetadata where
  activeTaskId := some "T".toList
  guideTargetId := some "t".toList
  activePathKey := some "p".toList
  activeGuideIndex := some 0
  plan := { tasks := [] }
  taskStates := ∅
  rankingDirty := false

def guidedMoment (executions : ℕ) : Moment where
  executions := executions
  context := some { targetId := some "t".toList, semanticTaskId := some "T".toList }
  runtime := some guidedRuntime

/-- The guide of these moments. -/
def onlyGuide : Guide where
  taskId := "T".toList
  pathKey := "p".toList
  index := 0
  target := "t".toList
  path := []

/-- The second window of the guide uses up a budget of four executions. -/
theorem run_budgetWindows_expired :
    ((run 4 [guidedMoment 10, guidedMoment 12, guidedMoment 15]).log.map Window.amount).sum = 15 ∧
      ∃ w ∈ (run 4 [guidedMoment 10, guidedMoment 12, guidedMoment 15]).log, ∃ g,
        w.expired = some onlyGuide.budgetKey ∧ w.guide = some g ∧
        splitOnce nul onlyGuide.budgetKey = some (g.taskId, g.identity) := by
  obtain ⟨-, -, hsum, -, hsplit⟩ := run_budgetWindows 4 [guidedMoment 10, guidedMoment 12, guidedMoment 15]
  have hlog : (run 4 [guidedMoment 10, guidedMoment 12, guidedMoment 15]).log.map
      (fun w => (w.guide.map Guide.taskId, w.expired)) =
        [(some "T".toList, some onlyGuide.budgetKey), (some "T".toList, none), (none, none)] := by
    decide +kernel
  obtain ⟨w, hw, heq⟩ := List.mem_map.1 (hlog ▸ List.mem_cons_self)
  obtain ⟨htask, hexpired⟩ := Prod.mk.inj heq
  obtain ⟨g, hg, hsplit⟩ := hsplit w hw _ hexpired
  rw [hg, Option.map_some, Option.some.injEq] at htask
  exact ⟨hsum (by decide +kernel), w, hw, g, hexpired, hg, hsplit (by rw [htask]; decide)⟩

end Visits

end SemantiST.Semantic
