import SemantiST.Campaign.Confirmation

/-!
# The solver phases of a campaign

The claims of solver queries, the startup queries and the queries for live prefixes
(`fuzzer/pipeline/campaign.py`).  What the clock, the solver and the probes answer is given with
every step.
-/

namespace SemantiST.Campaign

open Lib

/-! ## Tasks -/

/-- What the solver phases read of a goal task. -/
structure Task where
  taskId : Option Text
  hazard : Text
  goalClass : Text
  symbolicSuitable : Bool
  runtimeId : Option ℕ
  solverQueries : Option ℤ
deriving DecidableEq

/-- `str(task.get("task_id"))` -/
def Task.key (task : Task) : Text := task.taskId.getD "None".toList

structure Settings where
  maxEvaluations : ℤ
  tasks : List Task
  index : RuntimeIndex

namespace Settings

/-- `max(0, max_evaluations)` -/
def limit (c : Settings) : ℕ := c.maxEvaluations.toNat

/-- The limit that a task itself names. -/
def ownLimit (c : Settings) (task : Task) : ℕ := (task.solverQueries.getD c.maxEvaluations).toNat

/-- `_solver_task_limits` -/
def taskLimits (c : Settings) (key : Text) : Option ℕ :=
  lastValue (c.tasks.filterMap fun task =>
    (task.taskId.filter (· ≠ [])).map fun id => (id, c.ownLimit task)) key

/-- The limit of a task that claims obey. -/
def taskLimit (c : Settings) (key : Text) : ℕ := (c.taskLimits key).getD c.limit

end Settings

/-! ## Claims -/

structure SolverState where
  queriesUsed : ℕ := 0
  taskQueries : Std.ExtTreeMap Text ℕ compare := ∅
  candidates : List Candidate := []
  /-- The tasks of the `goal_reached` events, each with the number of candidates at its time. -/
  reached : List (Task × ℕ) := []

/-- The queries claimed for a task. -/
def SolverState.queries (s : SolverState) (key : Text) : ℕ := s.taskQueries.getD key 0

variable (c : Settings)

/-- `_claim_solver_budget`: `none` is the answer false. -/
def SolverState.claim (s : SolverState) (key : Text) : Option SolverState :=
  if c.limit ≤ s.queriesUsed then none
  else if c.taskLimit key ≤ s.queries key then none
  else
    some { s with
      queriesUsed := s.queriesUsed + 1
      taskQueries := s.taskQueries.insert key (s.queries key + 1) }

section

variable {c} {s s' : SolverState} {key : Text}

theorem claim_eq_none_iff : s.claim c key = none ↔ c.limit ≤ s.queriesUsed ∨ c.taskLimit key ≤ s.queries key := by
  unfold SolverState.claim
  split
  · rename_i h
    exact iff_of_true rfl (.inl h)
  · rename_i h
    split
    · rename_i h'
      exact iff_of_true rfl (.inr h')
    · rename_i h'
      constructor
      · intro hnone
        cases hnone
      · rintro (hused | hqueries)
        · exact absurd hused h
        · exact absurd hqueries h'

/-- What a claim that is granted changes. -/
theorem claim_eq_some (h : s.claim c key = some s') :
    s.queriesUsed < c.limit ∧ s.queries key < c.taskLimit key ∧ s'.queriesUsed = s.queriesUsed + 1 ∧
      (∀ key', s'.queries key' = if key = key' then s.queries key + 1 else s.queries key') ∧
      s'.candidates = s.candidates ∧ s'.reached = s.reached := by
  have hsome : ¬ s.claim c key = none := by
    rw [h]
    exact Option.some_ne_none _
  rw [claim_eq_none_iff, not_or, Nat.not_le, Nat.not_le] at hsome
  refine ⟨hsome.1, hsome.2, ?_⟩
  unfold SolverState.claim at h
  rw [if_neg (Nat.not_le.2 hsome.1), if_neg (Nat.not_le.2 hsome.2)] at h
  cases h
  refine ⟨rfl, ?_, rfl, rfl⟩
  intro key'
  rw [SolverState.queries, Std.ExtTreeMap.getD_insert]
  simp only [Std.LawfulEqCmp.compare_eq_iff_eq]
  rfl

end

/-! ## Results -/

/-- A result of `run_query`, the testcase of its `candidate_file` where it can be read, and what the
probe of that testcase observes. -/
structure Result where
  status : Text
  testcase : Option Text
  observation : Observation

def isSat (status : Text) : Bool := status = "SAT".toList || status = "SAT_APPROX".toList

/-- `_solver_candidate` -/
def solverCandidate (result : Result) : Text × Option Text :=
  if !(isSat result.status || result.status = "REPLAY_MISMATCH".toList || result.status = "UNKNOWN".toList ||
      result.status = "UNSAT".toList) then (result.status, none)
  else
    result.testcase.elim
      (if isSat result.status then "REPLAY_MISMATCH".toList else result.status, none)
      fun testcase => (result.status, some testcase)

/-- What both phases do with a result: a justified candidate in an observation that hits the goal is
registered, and the goal is recorded as reached. -/
def settle (task : Task) (result : Result) (s : SolverState) : SolverState :=
  (solverCandidate result).2.elim s fun testcase =>
    if !isSat (solverCandidate result).1 then s
    else
      (classify result.observation c.index).elim s fun info =>
        if task.runtimeId.any (· ∈ result.observation.hits) then
          let candidates := registerCandidate s.candidates testcase result.observation info
          { s with candidates := candidates, reached := s.reached ++ [(task, candidates.length)] }
        else s

/-- The goal of the task is recorded as reached. -/
def records (task : Task) (result : Result) : Bool :=
  (solverCandidate result).2.isSome && isSat (solverCandidate result).1 &&
    (classify result.observation c.index).isSome && task.runtimeId.any (· ∈ result.observation.hits)

/-- Either nothing is changed, or a candidate is registered and the goal recorded. -/
theorem settle_cases (task : Task) (result : Result) (s : SolverState) :
    (records c task result = false ∧ settle c task result s = s) ∨
    ∃ testcase info, records c task result = true ∧ classify result.observation c.index = some info ∧
      settle c task result s =
        { s with
          candidates := registerCandidate s.candidates testcase result.observation info
          reached := s.reached ++
            [(task, (registerCandidate s.candidates testcase result.observation info).length)] } := by
  unfold settle records
  cases (solverCandidate result).2 with
  | none => exact .inl ⟨rfl, rfl⟩
  | some testcase =>
    rw [Option.elim_some]
    cases isSat (solverCandidate result).1 with
    | false => exact .inl ⟨rfl, rfl⟩
    | true =>
      cases classify result.observation c.index with
      | none => exact .inl ⟨rfl, rfl⟩
      | some info =>
        cases task.runtimeId.any (· ∈ result.observation.hits) with
        | false => exact .inl ⟨rfl, rfl⟩
        | true => exact .inr ⟨testcase, info, rfl, rfl, rfl⟩

/-! ## Startup -/

inductive Variant where
  | symbolic | typedFloatAnchor
deriving DecidableEq

/-- The answers for one task: of the clock, of `_float_conversion_anchor` and of the queries. -/
structure StartupAnswers where
  late : Bool
  lateAt : Variant → Bool
  anchor : Bool
  result : Variant → Result

structure Startup where
  solver : SolverState
  attempted : ℕ := 0
  previousStatus : Option Text := none
  /-- The loop over the variants of a task, the loop over the tasks was left. -/
  taskLeft : Bool := false
  left : Bool := false

/-- Nothing leaves the loop over the variants before the claim. -/
def startupAsks (task : Task × StartupAnswers) (s : Startup) (variant : Variant) : Bool :=
  !s.taskLeft &&
    (variant = .symbolic || (task.2.anchor &&
      (s.previousStatus = some "UNKNOWN".toList || s.previousStatus = some "UNSAT".toList))) &&
    !task.2.lateAt variant && decide (s.attempted < c.limit)

def startupVariant (task : Task × StartupAnswers) (s : Startup) (variant : Variant) : Startup :=
  if startupAsks c task s variant then
    (s.solver.claim c task.1.key).elim { s with taskLeft := true } fun solver =>
      { s with
        solver := settle c task.1 (task.2.result variant) solver
        attempted := s.attempted + 1
        previousStatus := some (task.2.result variant).status }
  else { s with taskLeft := true }

theorem startupVariant_cases (step : Task × StartupAnswers) (s : Startup) (variant : Variant) :
    ((startupAsks c step s variant = true → s.solver.claim c step.1.key = none) ∧
      startupVariant c step s variant = { s with taskLeft := true }) ∨
    ∃ solver, startupAsks c step s variant = true ∧ s.solver.claim c step.1.key = some solver ∧
      startupVariant c step s variant =
        { s with
          solver := settle c step.1 (step.2.result variant) solver
          attempted := s.attempted + 1
          previousStatus := some (step.2.result variant).status } := by
  unfold startupVariant
  split
  · rename_i hasks
    cases hclaim : s.solver.claim c step.1.key with
    | none => exact .inl ⟨fun _ => rfl, rfl⟩
    | some solver => exact .inr ⟨solver, hasks, rfl, rfl⟩
  · rename_i hasks
    exact .inl ⟨fun h => absurd h hasks, rfl⟩

def openTask (s : Startup) (task : Task × StartupAnswers) : Startup :=
  if s.left || task.2.late || decide (c.limit ≤ s.attempted) then { s with left := true, taskLeft := true }
  else { s with previousStatus := none, taskLeft := false }

theorem openTask_solver (s : Startup) (step : Task × StartupAnswers) : (openTask c s step).solver = s.solver := by
  unfold openTask
  split
  · rfl
  · rfl

def startupTask (s : Startup) (task : Task × StartupAnswers) : Startup :=
  [Variant.symbolic, .typedFloatAnchor].foldl (startupVariant c task) (openTask c s task)

def eligible (task : Task) : Bool :=
  task.hazard ∈ ["array_access".toList, "pointer_access".toList, "division".toList, "modulo".toList,
    "dangerous_conversion".toList] && task.symbolicSuitable && task.runtimeId.isSome

/-- The eligible tasks, those with a suggestion first. -/
def orderedTasks (suggestions : Text → Bool) : List Task :=
  let tasks := c.tasks.filter eligible
  tasks.filter (fun task => suggestions task.key) ++ tasks.filter fun task => !suggestions task.key

/-- `run_symbolic_startup`; `answers` are those for the tasks in their order. -/
def runSymbolicStartup (suggestions : Text → Bool) (answers : List StartupAnswers) (s : SolverState) : SolverState :=
  (((orderedTasks c suggestions).zip answers).foldl (startupTask c) { solver := s }).solver

/-! ## Live prefixes -/

/-- A record of `klee-queue.jsonl`; what has the wrong type is `none`. -/
structure Record where
  prefixId : Option Text
  taskId : Option Text
  framesFile : Option Text
  queue : Option Text
  trigger : Option Text
  taskUnresolved : Bool
  nativeExecution : Option ℤ

/-- The answers for a task of a record. -/
structure TaskAnswers where
  late : Bool
  /-- The engine has recorded the goal as reached. -/
  engineReached : Bool
  result : Result

/-- The answers for a record: the number of frames of its testcase, `none` where it cannot be read. -/
structure RecordAnswers where
  late : Bool
  frames : Option ℕ
  tasks : List TaskAnswers

inductive LiveStep where
  /-- The queue is read again, unless it is late or the engine has ended. -/
  | poll (late : Bool)
  | record (record : Record) (answers : RecordAnswers)

structure Live where
  solver : SolverState
  taskQueries : Std.ExtTreeMap Text ℕ compare := ∅
  seen : List (Text × Option Text) := []
  budgetExhausted : Bool := false
  /-- The loop over the tasks of a record, the records of a poll, the polls was left. -/
  recordLeft : Bool := false
  pollLeft : Bool := true
  left : Bool := false
  /-- The field `queries` of the `solver_budget_exhausted` events of this phase. -/
  exhaustedAt : List ℕ := []

/-- The queries of this phase for a task. -/
def Live.queries (s : Live) (key : Text) : ℕ := s.taskQueries.getD key 0

/-- The tasks that the live phase serves. -/
def liveTasks : List Task :=
  c.tasks.filter fun task => task.symbolicSuitable && task.goalClass = "defect".toList && task.runtimeId.isSome

/-- `solver_prefix_skip_reason` gives a reason. -/
def skips (record : Record) (task : Task) : Bool :=
  record.taskId ≠ task.taskId || record.queue ≠ some "klee_suffix".toList ||
    !(record.trigger = some "task_distance_improved".toList || record.trigger = some "native_hazard_reach".toList) ||
    !record.taskUnresolved || record.nativeExecution.isNone ||
    !task.symbolicSuitable || task.goalClass ≠ "defect".toList

/-- `_native_task_reached`: the events of the engine and of the campaign itself. -/
def taskReached (s : Live) (answers : TaskAnswers) (task : Task) : Bool :=
  answers.engineReached || s.solver.reached.any fun reached => reached.1.key = task.key

/-- A query is asked for the task: nothing skips it and its own count of this phase is below its limit. -/
def asks (record : Record) (s : Live) (step : Task × TaskAnswers) : Bool :=
  !s.recordLeft && !skips record step.1 && !step.2.late && !taskReached s step.2 step.1 &&
    decide (s.queries step.1.key < c.ownLimit step.1)

def liveTask (record : Record) (s : Live) (step : Task × TaskAnswers) : Live :=
  let (task, answers) := step
  if asks c record s step then
    (s.solver.claim c task.key).elim
      { s with
        budgetExhausted := true
        recordLeft := true
        exhaustedAt := s.exhaustedAt ++ [s.solver.queriesUsed] }
      fun solver =>
        { s with
          solver := settle c task answers.result solver
          taskQueries := s.taskQueries.insert task.key (s.queries task.key + 1) }
  else if !skips record task && answers.late then { s with recordLeft := true }
  else s

/-- What a task of a record changes: the claim is refused, it is granted, or no query is asked for. -/
theorem liveTask_cases (record : Record) (s : Live) (step : Task × TaskAnswers) :
    (asks c record s step = true ∧ s.solver.claim c step.1.key = none ∧
      liveTask c record s step =
        { s with
          budgetExhausted := true
          recordLeft := true
          exhaustedAt := s.exhaustedAt ++ [s.solver.queriesUsed] }) ∨
    (∃ solver, asks c record s step = true ∧ s.solver.claim c step.1.key = some solver ∧
      liveTask c record s step =
        { s with
          solver := settle c step.1 step.2.result solver
          taskQueries := s.taskQueries.insert step.1.key (s.queries step.1.key + 1) }) ∨
    (asks c record s step = false ∧
      (liveTask c record s step = s ∨ liveTask c record s step = { s with recordLeft := true })) := by
  obtain ⟨task, answers⟩ := step
  unfold liveTask
  dsimp only
  by_cases hasks : asks c record s (task, answers) = true
  · rw [if_pos hasks]
    cases hclaim : s.solver.claim c task.key with
    | none => exact .inl ⟨hasks, rfl, rfl⟩
    | some solver => exact .inr (.inl ⟨solver, hasks, rfl, rfl⟩)
  · rw [if_neg hasks]
    refine .inr (.inr ⟨Bool.not_eq_true _ |>.mp hasks, ?_⟩)
    split
    · exact .inr rfl
    · exact .inl rfl

/-- The record is new and its testcase can be read. -/
def accepts (s : Live) (record : Record) (answers : RecordAnswers) : Bool :=
  (record.prefixId.filter (· ≠ [])).any (fun id => (id, record.taskId) ∉ s.seen) &&
    (record.framesFile.filter (· ≠ [])).isSome && answers.frames.isSome

/-- The tasks of a record for which queries may be asked. -/
def recordTasks (s : Live) (record : Record) (answers : RecordAnswers) : List (Task × TaskAnswers) :=
  if !s.left && !s.pollLeft && !answers.late && accepts s record answers && answers.frames.any (0 < ·) then
    record.taskId.elim [] fun id => ((liveTasks c).filter fun task => task.key = id).zip answers.tasks
  else []

/-- What is done with a record before its tasks. -/
def openRecord (s : Live) (record : Record) (answers : RecordAnswers) : Live :=
  if s.left || s.pollLeft then s
  else if answers.late then { s with pollLeft := true }
  else if accepts s record answers then
    { s with seen := s.seen ++ [(record.prefixId.getD [], record.taskId)], recordLeft := false }
  else s

theorem openRecord_cases (s : Live) (record : Record) (answers : RecordAnswers) :
    (openRecord s record answers).solver = s.solver ∧ (openRecord s record answers).exhaustedAt = s.exhaustedAt ∧
      (openRecord s record answers).budgetExhausted = s.budgetExhausted := by
  unfold openRecord
  split
  · exact ⟨rfl, rfl, rfl⟩
  · split
    · exact ⟨rfl, rfl, rfl⟩
    · split
      · exact ⟨rfl, rfl, rfl⟩
      · exact ⟨rfl, rfl, rfl⟩

def liveStep (s : Live) : LiveStep → Live
  | .poll late =>
    if s.left then s
    else if s.budgetExhausted || late then { s with left := true }
    else { s with pollLeft := false }
  | .record record answers => (recordTasks c s record answers).foldl (liveTask c record) (openRecord s record answers)

/-- `_run_live_prefix_solver`, after the startup queries.  It stops with the reason
`solver_budget_exhausted` where `budgetExhausted` is set in the end. -/
def runLivePrefixSolver (steps : List LiveStep) (s : SolverState) : Live := steps.foldl (liveStep c) { solver := s }

end SemantiST.Campaign
