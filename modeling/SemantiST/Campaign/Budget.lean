import SemantiST.Campaign.Solver
import SemantiST.Lib.Along

/-!
# Solver budgets

The claims of both solver phases stay within the limits of the campaign and of the tasks; when the
live phase gives up for lack of budget.
-/

namespace SemantiST.Campaign

open Lib

variable {c : Settings}

/-! ## Claims -/

/-- No more queries are claimed than the campaign and each task may have. -/
structure Within (c : Settings) (s : SolverState) : Prop where
  campaign : s.queriesUsed ≤ c.limit
  task : ∀ key, s.queries key ≤ c.taskLimit key

variable {s s' : SolverState} {key : Text} {task : Task} {result : Result}

/-- **A claim that is granted stays within the limits.** -/
theorem Within.claim (h : Within c s) (hclaim : s.claim c key = some s') : Within c s' := by
  obtain ⟨hused, hqueries, hused', hqueries', -⟩ := claim_eq_some hclaim
  constructor
  · omega
  · intro key'
    rw [hqueries']
    split
    · rename_i hkey
      rw [← hkey]
      exact hqueries
    · exact h.task key'

theorem settle_queriesUsed : (settle c task result s).queriesUsed = s.queriesUsed := by
  rcases settle_cases c task result s with ⟨-, h⟩ | ⟨testcase, info, -, -, h⟩
  · rw [h]
  · rw [h]

theorem settle_queries : (settle c task result s).queries key = s.queries key := by
  rcases settle_cases c task result s with ⟨-, h⟩ | ⟨testcase, info, -, -, h⟩
  · rw [h]
  · rw [h]
    rfl

theorem Within.settle (h : Within c s) (task : Task) (result : Result) : Within c (settle c task result s) := by
  constructor
  · rw [settle_queriesUsed]
    exact h.campaign
  · intro key
    rw [settle_queries]
    exact h.task key

/-! ## Startup -/

theorem Within.startupVariant {startup : Startup} (h : Within c startup.solver) (step : Task × StartupAnswers)
    (variant : Variant) : Within c (startupVariant c step startup variant).solver := by
  rcases startupVariant_cases c step startup variant with ⟨-, heq⟩ | ⟨solver, -, hclaim, heq⟩
  · rw [heq]
    exact h
  · rw [heq]
    exact (h.claim hclaim).settle _ _

theorem Within.startupTask {startup : Startup} (h : Within c startup.solver) (step : Task × StartupAnswers) :
    Within c (startupTask c startup step).solver := by
  rw [← openTask_solver c startup step] at h
  exact foldl_invariant (I := fun startup : Startup => Within c startup.solver)
    (fun startup variant _ hs => hs.startupVariant step variant) h

theorem within_empty (c : Settings) : Within c {} where
  campaign := Nat.zero_le _
  task _ := Nat.zero_le _

/-- **The startup queries stay within the limits.** -/
theorem within_startup (suggestions : Text → Bool) (answers : List StartupAnswers) :
    Within c (runSymbolicStartup c suggestions answers {}) :=
  foldl_invariant (I := fun startup : Startup => Within c startup.solver)
    (fun _ step _ h => h.startupTask step) (within_empty c)

/-! ## Live prefixes -/

variable {live : Live} {record : Record}

/-- A query that is asked for is refused only where the whole campaign has used up its budget: the
task itself may still have one, startup queries counted. -/
def NotBlocked (c : Settings) (record : Record) (s : Live) (step : Task × TaskAnswers) : Prop :=
  asks c record s step = true →
    c.limit ≤ s.solver.queriesUsed ∨ s.solver.queries step.1.key < c.taskLimit step.1.key

/-- No query of the step is blocked. -/
def StepMeets (c : Settings) (s : Live) : LiveStep → Prop
  | .poll _ => True
  | .record record answers =>
    Along (liveTask c record) (NotBlocked c record) (openRecord s record answers) (recordTasks c s record answers)

/-- All refusals were for lack of campaign budget. -/
def RefusedLate (c : Settings) (s : Live) : Prop := ∀ queries ∈ s.exhaustedAt, c.limit ≤ queries

theorem refusedLate_liveTask (record : Record) (s : Live) (step : Task × TaskAnswers) :
    RefusedLate c (liveTask c record s step) ↔ RefusedLate c s ∧ NotBlocked c record s step := by
  rcases liveTask_cases c record s step with ⟨hasks, hclaim, heq⟩ | ⟨solver, hasks, hclaim, heq⟩ | ⟨hasks, heq⟩
  · rw [heq]
    have hlog : RefusedLate c { s with budgetExhausted := true
                                       recordLeft := true
                                       exhaustedAt := s.exhaustedAt ++ [s.solver.queriesUsed] } ↔
        RefusedLate c s ∧ c.limit ≤ s.solver.queriesUsed := by
      unfold RefusedLate
      rw [List.forall_mem_append, List.forall_mem_singleton]
    rw [hlog]
    apply and_congr_right
    intro _
    rcases claim_eq_none_iff.1 hclaim with hused | hqueries
    · exact iff_of_true hused fun _ => .inl hused
    · constructor
      · exact fun hused _ => .inl hused
      · intro h
        exact (h hasks).resolve_right (Nat.not_lt.2 hqueries)
  · obtain ⟨hused, hqueries, -⟩ := claim_eq_some hclaim
    rw [heq]
    exact (and_iff_left fun _ => .inr hqueries).symm
  · have hnot : NotBlocked c record s step := by
      intro h
      rw [h] at hasks
      cases hasks
    rw [and_iff_left hnot]
    rcases heq with heq | heq
    · rw [heq]
    · rw [heq]
      rfl

theorem refusedLate_liveStep (s : Live) (step : LiveStep) :
    RefusedLate c (liveStep c s step) ↔ RefusedLate c s ∧ StepMeets c s step := by
  cases step with
  | poll late =>
    rw [StepMeets, and_true, liveStep]
    split
    · rfl
    · split
      · rfl
      · rfl
  | record record answers =>
    rw [liveStep, StepMeets, foldl_iff_along (fun _ => True) (fun _ _ _ => trivial)
      (fun s step _ => refusedLate_liveTask record s step) trivial]
    have hopen : RefusedLate c (openRecord s record answers) ↔ RefusedLate c s := by
      rw [RefusedLate, (openRecord_cases s record answers).2.1, RefusedLate]
    rw [hopen]

/-- The counts are within the limits, and the reason to stop has its event. -/
structure Counted (c : Settings) (s : Live) : Prop where
  within : Within c s.solver
  event : s.budgetExhausted = true → ∃ queries ∈ s.exhaustedAt, queries ≤ s.solver.queriesUsed

theorem Counted.liveTask (h : Counted c live) (record : Record) (step : Task × TaskAnswers) :
    Counted c (liveTask c record live step) := by
  rcases liveTask_cases c record live step with ⟨-, -, heq⟩ | ⟨solver, -, hclaim, heq⟩ | ⟨-, heq | heq⟩
  · rw [heq]
    exact ⟨h.within, fun _ => ⟨live.solver.queriesUsed, List.mem_append_right _ (List.mem_singleton_self _), le_rfl⟩⟩
  · rw [heq]
    refine ⟨(h.within.claim hclaim).settle _ _, ?_⟩
    intro hexhausted
    obtain ⟨queries, hmem, hle⟩ := h.event hexhausted
    obtain ⟨-, -, hused, -⟩ := claim_eq_some hclaim
    refine ⟨queries, hmem, ?_⟩
    show queries ≤ (settle c step.1 step.2.result solver).queriesUsed
    rw [settle_queriesUsed]
    omega
  · rw [heq]
    exact h
  · rw [heq]
    exact ⟨h.within, h.event⟩

theorem Counted.liveStep (h : Counted c live) (step : LiveStep) : Counted c (liveStep c live step) := by
  cases step with
  | poll late =>
    rw [Campaign.liveStep]
    split
    · exact h
    · split
      · exact ⟨h.within, h.event⟩
      · exact ⟨h.within, h.event⟩
  | record record answers =>
    obtain ⟨hsolver, hexhaustedAt, hexhausted⟩ := openRecord_cases live record answers
    have hopen : Counted c (openRecord live record answers) := by
      constructor
      · rw [hsolver]
        exact h.within
      · rw [hsolver, hexhaustedAt, hexhausted]
        exact h.event
    exact foldl_invariant (fun s step _ hs => hs.liveTask record step) hopen

/-- Both phases stay within the limits, and the live phase gives up for lack of budget only where
the campaign has none left. -/
structure BudgetsIsolated (c : Settings) (startup : SolverState) (live : Live) : Prop where
  atStartup : Within c startup
  atEnd : Within c live.solver
  refused : ∀ queries ∈ live.exhaustedAt, c.limit ≤ queries
  stops : live.budgetExhausted = true → c.limit ≤ live.solver.queriesUsed

/-- **Solver budgets are isolated precisely in the runs in which no query of a live prefix is
blocked.** -/
theorem budgetsIsolated_iff (c : Settings) (suggestions : Text → Bool) (answers : List StartupAnswers)
    (steps : List LiveStep) :
    BudgetsIsolated c (runSymbolicStartup c suggestions answers {})
      (runLivePrefixSolver c steps (runSymbolicStartup c suggestions answers {})) ↔
    Along (liveStep c) (StepMeets c) { solver := runSymbolicStartup c suggestions answers {} } steps := by
  have hstartup := @within_startup c suggestions answers
  generalize runSymbolicStartup c suggestions answers {} = startup at *
  have hcounted : Counted c (runLivePrefixSolver c steps startup) :=
    foldl_invariant (fun s step _ hs => hs.liveStep step) ⟨hstartup, fun h => by cases h⟩
  have hrefused : RefusedLate c (runLivePrefixSolver c steps startup) ↔
      Along (liveStep c) (StepMeets c) { solver := startup } steps := by
    rw [runLivePrefixSolver, foldl_iff_along (fun _ => True) (fun _ _ _ => trivial)
      (fun s step _ => refusedLate_liveStep s step) trivial]
    apply and_iff_right
    intro queries hmem
    cases hmem
  rw [← hrefused]
  constructor
  · exact BudgetsIsolated.refused
  · intro h
    refine ⟨hstartup, hcounted.within, h, ?_⟩
    intro hexhausted
    obtain ⟨queries, hmem, hle⟩ := hcounted.event hexhausted
    exact (h queries hmem).trans hle

/-- A task that may have one query, which it uses at startup. -/
def oneQuery : Task where
  taskId := some "T".toList
  hazard := "division".toList
  goalClass := "defect".toList
  symbolicSuitable := true
  runtimeId := some 5
  solverQueries := some 1

def unsat : Result where
  status := "UNSAT".toList
  testcase := none
  observation := { timedOut := false, stderr := [] }

def prefixOf (key : String) : Record where
  prefixId := some "P".toList
  taskId := some key.toList
  framesFile := some "P.txt".toList
  queue := some "klee_suffix".toList
  trigger := some "native_hazard_reach".toList
  taskUnresolved := true
  nativeExecution := some 1

/-- **The live phase stops for lack of budget** when a task has used its one query at startup, though
the campaign may claim two more. -/
theorem not_budgetsIsolated_oneQuery : ¬ ∀ (c : Settings) (suggestions : Text → Bool)
    (answers : List StartupAnswers) (steps : List LiveStep),
    BudgetsIsolated c (runSymbolicStartup c suggestions answers {})
      (runLivePrefixSolver c steps (runSymbolicStartup c suggestions answers {})) := by
  intro h
  have hstops := (h { maxEvaluations := 3, tasks := [oneQuery], index := ∅ } (fun _ => false)
    [{ late := false, lateAt := fun _ => false, anchor := false, result := fun _ => unsat }]
    [.poll false, .record (prefixOf "T")
      { late := false, frames := some 1, tasks := [{ late := false, engineReached := false, result := unsat }] }]).stops
  exact absurd (hstops (by decide +kernel)) (by decide +kernel)

end SemantiST.Campaign
