import SemantiST.Campaign.Solver
import SemantiST.Lib.Along

/-!
# Reached goals

What is registered when a solver phase records a goal as reached: the first justified hit of the
observation, which may be the violation of another goal.
-/

namespace SemantiST.Campaign

open Lib

variable {c : Settings} {observation : Observation} {goal : ℕ} {info : Info}

/-! ## The first justified hit -/

/-- The goal is an exact hazard violation. -/
def exactViolation (c : Settings) (goal : ℕ) : Bool :=
  c.index[goal]?.any fun entry =>
    entry.kind = some "hazard_violation".toList && entry.modeling = some "exact".toList

/-- The hit is one that `classify` can name. -/
def justifiedHit (index : RuntimeIndex) (runtimeId : ℕ) : Bool := index[runtimeId]?.any RuntimeEntry.justified

theorem justifiedHit_of_exact (h : exactViolation c goal = true) : justifiedHit c.index goal = true := by
  unfold exactViolation at h
  unfold justifiedHit
  cases hentry : c.index[goal]? with
  | none =>
    rw [hentry] at h
    cases h
  | some entry =>
    rw [hentry, Option.any_some, Bool.and_eq_true] at h
    rw [Option.any_some, RuntimeEntry.justified, h.1, h.2, Bool.true_or, Bool.true_and]

/-- No hit with a smaller id is justified. -/
def FirstHit (index : RuntimeIndex) (observation : Observation) (goal : ℕ) : Prop :=
  ∀ runtimeId ∈ observation.hits, runtimeId < goal → justifiedHit index runtimeId = false

variable {index : RuntimeIndex}

theorem firstHazard_cons (runtimeId : ℕ) (cycles : List ℤ) (hits : List (ℕ × List ℤ)) :
    (justifiedHit index runtimeId = true ∧ ∃ info, firstHazard index ((runtimeId, cycles) :: hits) = some info ∧
      info.runtimeId = some runtimeId) ∨
    (justifiedHit index runtimeId = false ∧
      firstHazard index ((runtimeId, cycles) :: hits) = firstHazard index hits) := by
  unfold firstHazard justifiedHit
  rw [List.findSome?_cons]
  dsimp only
  cases hentry : index[runtimeId]? with
  | none => exact .inr ⟨rfl, rfl⟩
  | some entry =>
    cases hjust : entry.justified with
    | false =>
      rw [Option.filter_some_neg hjust]
      exact .inr ⟨hjust, rfl⟩
    | true =>
      rw [Option.filter_some_pos hjust]
      exact .inl ⟨hjust, _, rfl, rfl⟩

/-- **The first hazard of sorted hits is the one of a justified hit precisely where no justified hit
comes before it.** -/
theorem firstHazard_runtimeId {hits : List (ℕ × List ℤ)} (hsorted : hits.Pairwise fun a b => a.1 < b.1)
    (hgoal : goal ∈ hits.map Prod.fst) (hjustified : justifiedHit index goal = true) :
    ∃ info, firstHazard index hits = some info ∧
      (info.runtimeId = some goal ↔ ∀ hit ∈ hits, hit.1 < goal → justifiedHit index hit.1 = false) := by
  induction hits with
  | nil => cases hgoal
  | cons hit hits ih =>
    obtain ⟨runtimeId, cycles⟩ := hit
    obtain ⟨hfirst, hsorted⟩ := List.pairwise_cons.1 hsorted
    rw [List.map_cons, List.mem_cons] at hgoal
    rcases @firstHazard_cons index runtimeId cycles hits with ⟨hjust, info, hinfo, hid⟩ | ⟨hjust, hrest⟩
    · refine ⟨info, hinfo, ?_⟩
      rw [hid, Option.some.injEq]
      constructor
      · rintro rfl hit hmem hlt
        rcases List.mem_cons.1 hmem with rfl | hmem
        · exact absurd hlt (lt_irrefl _)
        · exact absurd hlt (hfirst hit hmem).asymm
      · intro hall
        by_contra hne
        obtain ⟨hit, hmem, rfl⟩ := List.mem_map.1 (hgoal.resolve_left (Ne.symm hne))
        have hfalse := hall (runtimeId, cycles) List.mem_cons_self (hfirst hit hmem)
        rw [hjust] at hfalse
        cases hfalse
    · have hne : goal ≠ runtimeId := by
        rintro rfl
        rw [hjust] at hjustified
        cases hjustified
      obtain ⟨info, hinfo, hiff⟩ := ih hsorted (hgoal.resolve_left hne)
      refine ⟨info, hrest.trans hinfo, hiff.trans ?_⟩
      rw [List.forall_mem_cons]
      exact (and_iff_right fun _ => hjust).symm

/-- **`classify` names a justified hit precisely where it is the first one.** -/
theorem classify_runtimeId (htime : observation.timedOut = false) (hgoal : goal ∈ observation.hits)
    (hjustified : justifiedHit index goal = true) :
    ∃ info, classify observation index = some info ∧
      (info.runtimeId = some goal ↔ FirstHit index observation goal) := by
  have hsorted : observation.hits.toList.Pairwise fun a b => a.1 < b.1 :=
    Std.ExtTreeMap.ordered_keys_toList.imp fun h => Nat.compare_eq_lt.1 h
  have hmem : ∀ runtimeId, runtimeId ∈ observation.hits.toList.map Prod.fst ↔ runtimeId ∈ observation.hits := by
    intro runtimeId
    rw [Std.ExtTreeMap.map_fst_toList_eq_keys, Std.ExtTreeMap.mem_keys]
  obtain ⟨info, hinfo, hiff⟩ := firstHazard_runtimeId hsorted ((hmem goal).2 hgoal) hjustified
  refine ⟨info, ?_, hiff.trans ?_⟩
  · unfold classify
    rw [htime, if_neg Bool.false_ne_true, hinfo]
  · constructor
    · intro h runtimeId hhit hlt
      obtain ⟨hit, hin, rfl⟩ := List.mem_map.1 ((hmem runtimeId).2 hhit)
      exact h hit hin hlt
    · intro h hit hin hlt
      exact h hit.1 ((hmem hit.1).1 (List.mem_map_of_mem hin)) hlt

/-! ## Registration -/

/-- A candidate of the goal is registered. -/
def Registered (candidates : List Candidate) (goal : ℕ) : Prop :=
  ∃ candidate ∈ candidates, candidate.info.runtimeId = some goal

variable {candidates : List Candidate} {testcase : Text}

theorem register_cases (candidates : List Candidate) (testcase : Text) (observation : Observation) (info : Info) :
    (registerCandidate candidates testcase observation info = candidates ∧
      ∃ candidate ∈ candidates, candidate.info.signature = info.signature) ∨
    ∃ candidate, candidate.info = info ∧
      registerCandidate candidates testcase observation info = candidates ++ [candidate] := by
  unfold registerCandidate
  split
  · rename_i h
    obtain ⟨candidate, hmem, hsame⟩ := List.any_eq_true.1 h
    exact .inl ⟨rfl, candidate, hmem, of_decide_eq_true hsame⟩
  · exact .inr ⟨_, rfl, rfl⟩

/-- **After a registration a goal has a candidate if it had one or if it is the one registered.** -/
theorem registered_register : Registered (registerCandidate candidates testcase observation info) goal ↔
    Registered candidates goal ∨ info.runtimeId = some goal := by
  rcases register_cases candidates testcase observation info with ⟨heq, candidate, hmem, hsame⟩ | ⟨candidate, hinfo, heq⟩
  · rw [heq]
    constructor
    · exact .inl
    · rintro (h | h)
      · exact h
      · have hid : candidate.info.runtimeId = info.runtimeId := congrArg (fun signature => signature.2.1) hsame
        exact ⟨candidate, hmem, hid.trans h⟩
  · rw [heq, Registered, Registered, ← hinfo]
    constructor
    · rintro ⟨found, hmem, hid⟩
      rcases List.mem_append.1 hmem with hmem | hmem
      · exact .inl ⟨found, hmem, hid⟩
      · rw [List.mem_singleton.1 hmem] at hid
        exact .inr hid
    · rintro (⟨found, hmem, hid⟩ | h)
      · exact ⟨found, List.mem_append_left _ hmem, hid⟩
      · exact ⟨candidate, List.mem_append_right _ (List.mem_singleton_self _), h⟩

theorem prefix_register (candidates : List Candidate) (testcase : Text) (observation : Observation) (info : Info) :
    candidates <+: registerCandidate candidates testcase observation info := by
  rcases register_cases candidates testcase observation info with ⟨heq, -⟩ | ⟨candidate, -, heq⟩
  · rw [heq]
  · rw [heq]
    exact List.prefix_append _ _

/-! ## What a result records -/

variable {s s' : SolverState} {task : Task} {result : Result} {key : Text}

/-- Whenever an exact violation was recorded as reached, a candidate of it was registered. -/
def Unmasked (c : Settings) (s : SolverState) : Prop :=
  ∀ entry ∈ s.reached, ∀ goal, entry.1.runtimeId = some goal → exactViolation c goal = true →
    Registered (s.candidates.take entry.2) goal

/-- The events were recorded with candidates that are still there. -/
def Timed (s : SolverState) : Prop := ∀ entry ∈ s.reached, entry.2 ≤ s.candidates.length

/-- Where the goal of the task is recorded, it is the first justified hit, or it has a candidate. -/
def NotMasked (c : Settings) (s : SolverState) (task : Task) (result : Result) : Prop :=
  records c task result = true → ∀ goal, task.runtimeId = some goal → exactViolation c goal = true →
    FirstHit c.index result.observation goal ∨ Registered s.candidates goal

theorem Timed.settle (h : Timed s) (task : Task) (result : Result) : Timed (settle c task result s) := by
  rcases settle_cases c task result s with ⟨-, heq⟩ | ⟨testcase, info, -, -, heq⟩
  · rw [heq]
    exact h
  · rw [heq]
    have hle := (prefix_register s.candidates testcase result.observation info).length_le
    intro entry hentry
    rcases List.mem_append.1 hentry with hentry | hentry
    · exact (h entry hentry).trans hle
    · rw [List.mem_singleton.1 hentry]

theorem take_register (candidates : List Candidate) (testcase : Text) (observation : Observation) (info : Info)
    {n : ℕ} (h : n ≤ candidates.length) :
    (registerCandidate candidates testcase observation info).take n = candidates.take n := by
  obtain ⟨more, hmore⟩ := prefix_register candidates testcase observation info
  rw [← hmore, List.take_append_of_le_length h]

/-- **A result leaves no goal masked precisely where its own goal is not masked.** -/
theorem unmasked_settle (htimed : Timed s) (task : Task) (result : Result) :
    Unmasked c (settle c task result s) ↔ Unmasked c s ∧ NotMasked c s task result := by
  rcases settle_cases c task result s with ⟨hrecords, heq⟩ | ⟨testcase, info, hrecords, hinfo, heq⟩
  · rw [heq]
    apply (and_iff_left _).symm
    intro h
    rw [hrecords] at h
    cases h
  · rw [heq]
    have hold : ∀ entry ∈ s.reached,
        (registerCandidate s.candidates testcase result.observation info).take entry.2 = s.candidates.take entry.2 :=
      fun entry hentry => take_register _ _ _ _ (htimed entry hentry)
    have hsplit : Unmasked c
        { s with
          candidates := registerCandidate s.candidates testcase result.observation info
          reached := s.reached ++
            [(task, (registerCandidate s.candidates testcase result.observation info).length)] } ↔
        Unmasked c s ∧ ∀ goal, task.runtimeId = some goal → exactViolation c goal = true →
          Registered (registerCandidate s.candidates testcase result.observation info) goal := by
      unfold Unmasked
      rw [List.forall_mem_append, List.forall_mem_singleton, List.take_length]
      apply and_congr_left
      intro _
      apply forall₂_congr
      intro entry hentry
      rw [hold entry hentry]
    rw [hsplit]
    apply and_congr_right
    intro _
    unfold NotMasked
    rw [forall_prop_of_true hrecords]
    apply forall₃_congr
    intro goal hgoal hexact
    have htime : result.observation.timedOut = false := by
      cases htime : result.observation.timedOut with
      | false => rfl
      | true =>
        rw [classify, htime, if_pos rfl] at hinfo
        cases hinfo
    have hhit : goal ∈ result.observation.hits := by
      unfold records at hrecords
      rw [hgoal, Option.any_some, Bool.and_eq_true] at hrecords
      exact of_decide_eq_true hrecords.2
    obtain ⟨info', hinfo', hfirst⟩ := classify_runtimeId htime hhit (justifiedHit_of_exact hexact)
    cases hinfo.symm.trans hinfo'
    rw [registered_register, hfirst, or_comm]

/-! ## The startup phase -/

/-- A query that is granted for a variant does not mask its goal. -/
def VariantMeets (c : Settings) (task : Task × StartupAnswers) (s : Startup) (variant : Variant) : Prop :=
  startupAsks c task s variant = true → (s.solver.claim c task.1.key).isSome = true →
    NotMasked c s.solver task.1 (task.2.result variant)

def StartupMeets (c : Settings) (s : Startup) (task : Task × StartupAnswers) : Prop :=
  Along (startupVariant c task) (VariantMeets c task) (openTask c s task) [.symbolic, .typedFloatAnchor]

theorem Timed.of_eq (h : Timed s) (hcandidates : s'.candidates = s.candidates) (hreached : s'.reached = s.reached) :
    Timed s' := by
  unfold Timed
  rw [hcandidates, hreached]
  exact h

theorem unmasked_congr (hcandidates : s'.candidates = s.candidates) (hreached : s'.reached = s.reached) :
    Unmasked c s' ↔ Unmasked c s := by
  unfold Unmasked
  rw [hcandidates, hreached]

theorem notMasked_congr (hcandidates : s'.candidates = s.candidates) :
    NotMasked c s' task result ↔ NotMasked c s task result := by
  unfold NotMasked
  rw [hcandidates]

/-- A granted claim and its result leave no goal masked precisely where its own goal is not. -/
theorem unmasked_query (htimed : Timed s) (hclaim : s.claim c key = some s') (task : Task) (result : Result) :
    Timed (settle c task result s') ∧
      (Unmasked c (settle c task result s') ↔ Unmasked c s ∧ NotMasked c s task result) := by
  obtain ⟨-, -, -, -, hcandidates, hreached⟩ := claim_eq_some hclaim
  have htimed' : Timed s' := htimed.of_eq hcandidates hreached
  refine ⟨htimed'.settle task result, ?_⟩
  rw [unmasked_settle htimed', unmasked_congr hcandidates hreached, notMasked_congr hcandidates]

theorem unmasked_startupVariant (task : Task × StartupAnswers) (startup : Startup) (variant : Variant)
    (htimed : Timed startup.solver) :
    Timed (startupVariant c task startup variant).solver ∧
      (Unmasked c (startupVariant c task startup variant).solver ↔
        Unmasked c startup.solver ∧ VariantMeets c task startup variant) := by
  unfold VariantMeets
  rcases startupVariant_cases c task startup variant with ⟨hrefused, heq⟩ | ⟨solver, hasks, hclaim, heq⟩
  · rw [heq]
    refine ⟨htimed, (and_iff_left ?_).symm⟩
    intro hasks hsome
    rw [hrefused hasks] at hsome
    cases hsome
  · rw [heq, hclaim]
    obtain ⟨htimed', hiff⟩ := unmasked_query htimed hclaim task.1 (task.2.result variant)
    exact ⟨htimed', hiff.trans (and_congr_right fun _ => ⟨fun h _ _ => h, fun h => h hasks rfl⟩)⟩

theorem unmasked_startupTask (startup : Startup) (task : Task × StartupAnswers) (htimed : Timed startup.solver) :
    Timed (startupTask c startup task).solver ∧
      (Unmasked c (startupTask c startup task).solver ↔ Unmasked c startup.solver ∧ StartupMeets c startup task) := by
  have hopen : Timed (openTask c startup task).solver := by
    rw [openTask_solver]
    exact htimed
  constructor
  · exact foldl_invariant (I := fun startup : Startup => Timed startup.solver)
      (fun startup variant _ h => (unmasked_startupVariant task startup variant h).1) hopen
  · have hrun := foldl_iff_along (I := fun startup : Startup => Unmasked c startup.solver)
      (l := [Variant.symbolic, .typedFloatAnchor]) (fun startup => Timed startup.solver)
      (fun startup variant h => (unmasked_startupVariant (c := c) task startup variant h).1)
      (fun startup variant h => (unmasked_startupVariant task startup variant h).2) hopen
    rw [openTask_solver] at hrun
    exact hrun

/-! ## The live phase -/

variable {record : Record}

/-- A query that is granted for a task of the record does not mask its goal. -/
def TaskMeets (c : Settings) (record : Record) (s : Live) (task : Task × TaskAnswers) : Prop :=
  asks c record s task = true → (s.solver.claim c task.1.key).isSome = true →
    NotMasked c s.solver task.1 task.2.result

def LiveMeets (c : Settings) (s : Live) : LiveStep → Prop
  | .poll _ => True
  | .record record answers =>
    Along (liveTask c record) (TaskMeets c record) (openRecord s record answers) (recordTasks c s record answers)

theorem unmasked_liveTask (record : Record) (live : Live) (task : Task × TaskAnswers) (htimed : Timed live.solver) :
    Timed (liveTask c record live task).solver ∧
      (Unmasked c (liveTask c record live task).solver ↔ Unmasked c live.solver ∧ TaskMeets c record live task) := by
  unfold TaskMeets
  rcases liveTask_cases c record live task with ⟨hasks, hclaim, heq⟩ | ⟨solver, hasks, hclaim, heq⟩ | ⟨hasks, heq⟩
  · rw [heq, hclaim]
    exact ⟨htimed, (and_iff_left fun _ h => by cases h).symm⟩
  · rw [heq, hclaim]
    obtain ⟨htimed', hiff⟩ := unmasked_query htimed hclaim task.1 task.2.result
    exact ⟨htimed', hiff.trans (and_congr_right fun _ => ⟨fun h _ _ => h, fun h => h hasks rfl⟩)⟩
  · have hsolver : (liveTask c record live task).solver = live.solver := by
      rcases heq with heq | heq
      · rw [heq]
      · rw [heq]
    rw [hsolver]
    refine ⟨htimed, (and_iff_left ?_).symm⟩
    intro h
    rw [hasks] at h
    cases h

theorem unmasked_liveStep (live : Live) (step : LiveStep) (htimed : Timed live.solver) :
    Timed (liveStep c live step).solver ∧
      (Unmasked c (liveStep c live step).solver ↔ Unmasked c live.solver ∧ LiveMeets c live step) := by
  cases step with
  | poll late =>
    have hsolver : (liveStep c live (.poll late)).solver = live.solver := by
      rw [liveStep]
      split
      · rfl
      · split
        · rfl
        · rfl
    rw [hsolver]
    exact ⟨htimed, (and_iff_left trivial).symm⟩
  | record record answers =>
    have hsolver := (openRecord_cases live record answers).1
    have hopen : Timed (openRecord live record answers).solver := by
      rw [hsolver]
      exact htimed
    constructor
    · exact foldl_invariant (I := fun live : Live => Timed live.solver)
        (fun live task _ h => (unmasked_liveTask record live task h).1) hopen
    · have hrun := foldl_iff_along (I := fun live : Live => Unmasked c live.solver)
        (l := recordTasks c live record answers) (fun live => Timed live.solver)
        (fun live task h => (unmasked_liveTask (c := c) record live task h).1)
        (fun live task h => (unmasked_liveTask record live task h).2) hopen
      rw [hsolver] at hrun
      exact hrun

/-! ## Both phases -/

/-- **No reached goal is masked precisely in the runs in which every result that records an exact
violation hits it as its first justified one, or finds a candidate of it.** -/
theorem unmasked_iff (c : Settings) (suggestions : Text → Bool) (answers : List StartupAnswers)
    (steps : List LiveStep) :
    (Unmasked c (runSymbolicStartup c suggestions answers {}) ∧
      Unmasked c (runLivePrefixSolver c steps (runSymbolicStartup c suggestions answers {})).solver) ↔
    Along (startupTask c) (StartupMeets c) { solver := {} } ((orderedTasks c suggestions).zip answers) ∧
      Along (liveStep c) (LiveMeets c) { solver := runSymbolicStartup c suggestions answers {} } steps := by
  have hempty : Timed {} := fun entry hentry => by cases hentry
  have hunmasked : Unmasked c {} := fun entry hentry => by cases hentry
  have hstartup := foldl_iff_along (I := fun startup : Startup => Unmasked c startup.solver)
    (l := (orderedTasks c suggestions).zip answers) (fun startup => Timed startup.solver)
    (fun startup task h => (unmasked_startupTask (c := c) startup task h).1)
    (fun startup task h => (unmasked_startupTask startup task h).2) (s := { solver := {} }) hempty
  have htimed : Timed (runSymbolicStartup c suggestions answers {}) :=
    foldl_invariant (I := fun startup : Startup => Timed startup.solver)
      (fun startup task _ h => (unmasked_startupTask startup task h).1) hempty
  have hlive := foldl_iff_along (I := fun live : Live => Unmasked c live.solver) (l := steps)
    (fun live => Timed live.solver) (fun live step h => (unmasked_liveStep (c := c) live step h).1)
    (fun live step h => (unmasked_liveStep live step h).2)
    (s := { solver := runSymbolicStartup c suggestions answers {} }) htimed
  unfold runLivePrefixSolver
  rw [hlive, ← and_assoc, and_self]
  rw [and_iff_right hunmasked] at hstartup
  exact and_congr_left fun _ => hstartup

/-- Two exact violations, of runtime ids 3 and 5. -/
def twoViolations : RuntimeIndex :=
  let violation : RuntimeEntry :=
    { kind := some "hazard_violation".toList, hazard := some "division".toList, modeling := some "exact".toList }
  (∅ : RuntimeIndex).insert 3 violation |>.insert 5 violation

def secondViolation : Task where
  taskId := some "T".toList
  hazard := "division".toList
  goalClass := "defect".toList
  symbolicSuitable := true
  runtimeId := some 5
  solverQueries := none

/-- A testcase whose probe hits both. -/
def hitsBoth : Result where
  status := "SAT".toList
  testcase := some "0.X,INT,0".toList
  observation :=
    { timedOut := false
      stderr := []
      hits := (∅ : Std.ExtTreeMap ℕ (List ℤ) compare).insert 3 [0] |>.insert 5 [0] }

def twoGoals : Settings where
  maxEvaluations := 1
  tasks := [secondViolation]
  index := twoViolations

def oneAnswer : StartupAnswers where
  late := false
  lateAt _ := false
  anchor := false
  result _ := hitsBoth

/-- **The second of two violations that are hit together is recorded as reached without a candidate.** -/
theorem not_unmasked_secondViolation : ¬ ∀ (c : Settings) (suggestions : Text → Bool)
    (answers : List StartupAnswers) (steps : List LiveStep),
    Unmasked c (runSymbolicStartup c suggestions answers {}) ∧
      Unmasked c (runLivePrefixSolver c steps (runSymbolicStartup c suggestions answers {})).solver := by
  intro h
  obtain ⟨hunmasked, -⟩ := h twoGoals (fun _ => false) [oneAnswer] []
  have hreached : (runSymbolicStartup twoGoals (fun _ => false) [oneAnswer] {}).reached = [(secondViolation, 1)] := by
    decide +kernel
  have hcandidates : (runSymbolicStartup twoGoals (fun _ => false) [oneAnswer] {}).candidates.map
      (fun candidate => candidate.info.runtimeId) = [some 3] := by
    decide +kernel
  obtain ⟨candidate, hmem, hid⟩ := hunmasked (secondViolation, 1) (hreached ▸ List.mem_singleton_self _) 5 rfl
    (by decide +kernel)
  have hin := List.mem_map_of_mem (f := fun candidate : Candidate => candidate.info.runtimeId) (List.mem_of_mem_take hmem)
  rw [hcandidates, hid] at hin
  exact absurd hin (by decide)

end SemantiST.Campaign
