import Mathlib.Algebra.Order.Field.Rat
import SemantiST.Lib.Map
import SemantiST.Semantic.Plan

/-!
# The best seeds of the tasks

`cache_seed_profile` and `invalidate_seed` of `fuzzer/semantic/runtime.rs` over exact rationals: a
task remembers the four seeds from which it takes the least effort. The list of a task is brought up
to date only by the profiles that affect the task.
-/

namespace SemantiST.Semantic.Exact

open Lib

/-! ## Data -/

structure EffortNormalization where
  ec : ℚ := 1
  ed : ℚ := 1
  es : ℚ := 1
  et : ℚ := 1
  eh : ℚ := 1

structure SemanticTaskPlan where
  tasks : List SemanticTask
  normalizationByPou : Std.ExtTreeMap Text EffortNormalization compare := ∅

/-- What one corpus entry's execution showed. -/
structure SeedProfile where
  seedId : ℕ := 0
  orderedTargetIds : List Text := []
  orderedTraceComplete : Bool := false
  coveredTargetIds : List Text := []
  coveredTargetsByCycle : Std.ExtTreeMap Text (List Text) compare := ∅
  cycleIds : List ℕ := []
  stateSignatures : List Text := []
  targetAffinity : Std.ExtTreeMap Text ℚ compare := ∅
  parentId : Option ℕ := none

/-- The fields `cache_seed_profile` compares agree. -/
def SeedProfile.sameEvidence (stored profile : SeedProfile) : Bool :=
  stored.coveredTargetIds == profile.coveredTargetIds &&
    stored.orderedTargetIds == profile.orderedTargetIds &&
    stored.orderedTraceComplete == profile.orderedTraceComplete &&
    stored.coveredTargetsByCycle.toList == profile.coveredTargetsByCycle.toList &&
    stored.cycleIds == profile.cycleIds &&
    stored.stateSignatures == profile.stateSignatures &&
    stored.targetAffinity.toList == profile.targetAffinity.toList &&
    stored.parentId == profile.parentId

structure RankedSeed where
  seedId : ℕ
  effort : ℚ
  deriving DecidableEq

/-- The part of the runtime metadata that ranks the seeds. -/
structure SeedRanking where
  plan : SemanticTaskPlan
  seedProfiles : Std.ExtTreeMap ℕ SeedProfile compare := ∅
  topSeedsByTask : Std.ExtTreeMap Text (List RankedSeed) compare := ∅

def topSeedsPerTask : ℕ := 4

/-! ## Estimates -/

/-- `seed_path`, which reads the ordered targets alone. -/
def seedPath (task : SemanticTask) (seed : SeedProfile) : List Text × ℕ :=
  Semantic.seedPath task (some { orderedTargetIds := seed.orderedTargetIds })

def affinity (seed : SeedProfile) (task : SemanticTask) : ℚ :=
  max 0 (min 1 ((seed.targetAffinity[task.taskId]?).getD 0))

def effort (seed : SeedProfile) (task : SemanticTask) (norm : EffortNormalization) : ℚ :=
  let (activePath, matched) := seedPath task seed
  let covered := activePath.take matched
  let remaining := activePath.drop matched
  let ec := (task.controlObligations.countP fun obligation =>
    remaining.contains obligation.targetId : ℕ) / max norm.ec 1
  let ed := task.dataDependencies.length * (1 - affinity seed task) / max norm.ed 1
  let stateProgress := if seed.stateSignatures.isEmpty then 0 else affinity seed task
  let es := task.stateTransferChains.length * (1 - stateProgress) / max norm.es 1
  let completedTemporal := seed.cycleIds.length - 1
  let requiredTemporal := (task.temporalRequirements.map fun r => r.minimumCycles - 1).foldl max 0
  let et := (requiredTemporal - completedTemporal : ℕ) / max norm.et 1
  let eh := ((task.hazardPrerequisites.countP fun target => !covered.contains target) +
    (if covered.contains task.terminalTargetId then 0 else 1) : ℕ) / max norm.eh 1
  ec + ed + es + et + eh

def taskAffectedBySeed (task : SemanticTask) (seed : SeedProfile) : Bool :=
  (task.orderedWaypoints ++ task.candidatePaths.flatMap CandidatePath.targetIds ++
      task.hazardPrerequisites ++ task.unlockedTargets).any (seed.coveredTargetIds.contains ·) ||
    (seed.targetAffinity[task.taskId]?).any (0 < ·) ||
    (!seed.stateSignatures.isEmpty && !task.stateTransferChains.isEmpty) ||
    (1 < seed.cycleIds.length && !task.temporalRequirements.isEmpty)

namespace SeedRanking

/-! ## Ranking -/

/-- The normalization of a task's POU. -/
def normalization (s : SeedRanking) (task : SemanticTask) : EffortNormalization :=
  (s.plan.normalizationByPou[task.pou]?).getD {}

/-- The effort that the task takes from the seed. -/
def effortOf (s : SeedRanking) (profile : SeedProfile) (task : SemanticTask) : ℚ :=
  effort profile task (s.normalization task)

def seedOrder (left right : RankedSeed) : Ordering :=
  (compare left.effort right.effort).then (compare left.seedId right.seedId)

/-- The best seeds of a task once `profile` is ranked among them. -/
def rankSeed (s : SeedRanking) (profile : SeedProfile) (task : SemanticTask)
    (top : List RankedSeed) : List RankedSeed :=
  (sortBy seedOrder ((top.filter fun entry => entry.seedId ≠ profile.seedId) ++
    [⟨profile.seedId, s.effortOf profile task⟩])).take topSeedsPerTask

/-- One round of the loop over the tasks: the lists, and whether one of them has changed. -/
def rankStep (s : SeedRanking) (profile : SeedProfile) (affected : SemanticTask → Bool)
    (acc : Std.ExtTreeMap Text (List RankedSeed) compare × Bool) (task : SemanticTask) :
    Std.ExtTreeMap Text (List RankedSeed) compare × Bool :=
  let (tops, topChanged) := acc
  if !affected task then (tops, topChanged)
  else
    let before := (tops[task.taskId]?).getD []
    let top := s.rankSeed profile task before
    (tops.insert task.taskId top, topChanged || before != top)

/-- The tasks whose lists the profile brings up to date. -/
def affected (s : SeedRanking) (profile : SeedProfile) (task : SemanticTask) : Bool :=
  s.seedProfiles.isEmpty || taskAffectedBySeed task profile ||
    (s.seedProfiles[profile.seedId]?).any (taskAffectedBySeed task)

/-- The evidence of the profile is stored already. -/
def known (s : SeedRanking) (profile : SeedProfile) : Bool :=
  (s.seedProfiles[profile.seedId]?).any fun stored => stored.sameEvidence profile

def cacheSeedProfile (s : SeedRanking) (profile : SeedProfile) : SeedRanking × Bool :=
  if s.known profile then (s, false)
  else
    let (tops, topChanged) :=
      s.plan.tasks.foldl (s.rankStep profile (s.affected profile)) (s.topSeedsByTask, false)
    ({ s with
      seedProfiles := s.seedProfiles.insert profile.seedId profile
      topSeedsByTask := tops }, topChanged)

def invalidateSeed (s : SeedRanking) (seedId : ℕ) : SeedRanking :=
  if !s.seedProfiles.contains seedId then s
  else { s with
    seedProfiles := s.seedProfiles.erase seedId
    topSeedsByTask := s.topSeedsByTask.map fun _ top => top.filter fun entry => entry.seedId ≠ seedId }

/-! ## Runs -/

inductive Op where
  | cacheSeedProfile (profile : SeedProfile)
  | invalidateSeed (seedId : ℕ)

def step (s : SeedRanking) : Op → SeedRanking
  | .cacheSeedProfile profile => (s.cacheSeedProfile profile).1
  | .invalidateSeed seedId => s.invalidateSeed seedId

/-- The ranking after the calls, for a plan that nothing was cached for. -/
def run (plan : SemanticTaskPlan) (ops : List Op) : SeedRanking := ops.foldl step { plan := plan }

end SeedRanking

/-! ## Profiles that do not affect a task -/

section Unaffected

/-- A path is not begun by what has no part in it. -/
theorem orderedPrefixLen_eq_zero {α : Type} [DecidableEq α] {path observed : List α}
    (h : ∀ a ∈ observed, a ∉ path) : orderedPrefixLen path observed = 0 := by
  unfold orderedPrefixLen
  induction observed with
  | nil => rfl
  | cons a observed ih =>
    rw [List.forall_mem_cons] at h
    rw [List.foldl_cons, if_neg fun hfirst => h.1 (List.mem_of_getElem? hfirst)]
    exact ih h.2

variable {task : SemanticTask} {seed : SeedProfile}

/-- What a task takes from any seed that does not affect it. -/
theorem effort_unaffected (norm : EffortNormalization)
    (hordered : seed.orderedTargetIds ⊆ seed.coveredTargetIds)
    (h : taskAffectedBySeed task seed = false) : effort seed task norm = effort {} task norm := by
  unfold taskAffectedBySeed at h
  simp only [Bool.or_eq_false_iff, List.any_eq_false, List.mem_append, Bool.and_eq_false_iff,
    Bool.not_eq_false', List.isEmpty_iff, decide_eq_false_iff_not, not_lt] at h
  obtain ⟨⟨⟨htargets, haffinity⟩, hstates⟩, hcycles⟩ := h
  have hunseen : ∀ path : List Text, (∀ target ∈ path, target ∈ task.orderedWaypoints ∨
      target ∈ task.candidatePaths.flatMap CandidatePath.targetIds) →
        orderedPrefixLen path seed.orderedTargetIds = 0 := by
    intro path hpath
    refine orderedPrefixLen_eq_zero fun target htarget hmem => ?_
    refine htargets target ?_ (List.contains_iff_mem.2 (hordered htarget))
    exact .inl (.inl (hpath target hmem))
  have hempty : ∀ path : List Text, orderedPrefixLen path ([] : List Text) = 0 := fun _ => rfl
  have hcandidates : ∀ path ∈ (task.candidatePaths.map CandidatePath.targetIds).filter
      (fun path => !path.isEmpty), orderedPrefixLen path seed.orderedTargetIds = 0 := by
    intro path hpath
    obtain ⟨candidate, hcandidate, rfl⟩ := List.mem_map.1 (List.mem_of_mem_filter hpath)
    exact hunseen _ fun target htarget => .inr (List.mem_flatMap.2 ⟨candidate, hcandidate, htarget⟩)
  have hpath : seedPath task seed = seedPath task {} := by
    unfold seedPath Semantic.seedPath
    dsimp only
    have hmin : ∀ {paths : List (List Text)} {cmp : List Text → List Text → Ordering},
        (∀ left ∈ paths, ∀ right ∈ paths, cmp left right =
          (compare (left.length - orderedPrefixLen left ([] : List Text))
            (right.length - orderedPrefixLen right ([] : List Text))).then
              ((compare left.length right.length).then (compare left right))) →
        minBy cmp paths = minBy _ paths := fun h => minBy_congr h
    rw [hmin fun left hleft right hright => by
      rw [hcandidates left hleft, hcandidates right hright, hempty, hempty]]
    refine Prod.ext rfl ?_
    generalize hchosen : minBy _ _ = chosen
    cases chosen with
    | none => exact hunseen _ fun target htarget => .inl htarget
    | some path => exact hcandidates path (mem_of_minBy hchosen)
  have hmatched : (seedPath task {}).2 = 0 := rfl
  have haffinity : affinity seed task = 0 := by
    unfold affinity
    cases hfound : seed.targetAffinity[task.taskId]? with
    | none => rw [Option.getD_none]; norm_num
    | some x =>
      rw [hfound, Option.any_some, decide_eq_false_iff_not, not_lt] at haffinity
      rw [Option.getD_some]
      exact max_eq_left ((min_le_right _ _).trans haffinity)
  have hdefault : affinity {} task = 0 := rfl
  have htemporal : (task.temporalRequirements.map fun r => r.minimumCycles - 1).foldl max 0 -
      (seed.cycleIds.length - 1) =
        (task.temporalRequirements.map fun r => r.minimumCycles - 1).foldl max 0 := by
    obtain hone | hnone := hcycles
    · omega
    · rw [hnone]
      exact Nat.zero_sub _
  unfold effort
  rw [hpath, haffinity, hdefault]
  simp only [ite_self, List.length_nil, Nat.zero_sub, Nat.sub_zero, htemporal]

end Unaffected

namespace SeedRanking

variable {s : SeedRanking} {profile : SeedProfile} {task : SemanticTask} {top : List RankedSeed}

/-! ## One list -/

/-- The entry comes first: it is less effort, or as much for an earlier seed. -/
def Before (left right : RankedSeed) : Prop :=
  left.effort < right.effort ∨ left.effort = right.effort ∧ left.seedId < right.seedId

/-- A list of at most four different seeds in their order. -/
structure TopList (top : List RankedSeed) : Prop where
  sorted : top.Pairwise Before
  distinct : (top.map RankedSeed.seedId).Nodup
  short : top.length ≤ topSeedsPerTask

instance : Std.TransCmp seedOrder :=
  inferInstanceAs (Std.TransCmp (compareLex (compareOn RankedSeed.effort)
    (compareOn RankedSeed.seedId)))

theorem before_of_seedOrder {left right : RankedSeed} (h : (seedOrder left right).isLE = true)
    (hne : left.seedId ≠ right.seedId) : Before left right := by
  unfold seedOrder at h
  cases heffort : compare left.effort right.effort with
  | lt => exact .inl (compare_lt_iff_lt.1 heffort)
  | eq =>
    rw [heffort, Ordering.eq_then] at h
    exact .inr ⟨Std.compare_eq_iff_eq.1 heffort, lt_of_le_of_ne (Std.isLE_compare.1 h) hne⟩
  | gt =>
    rw [heffort, Ordering.gt_then] at h
    cases h

theorem TopList.nil : TopList [] where
  sorted := .nil
  distinct := .nil
  short := Nat.zero_le _

theorem TopList.filter (h : TopList top) (keep : RankedSeed → Bool) : TopList (top.filter keep) where
  sorted := h.sorted.filter keep
  distinct := (List.filter_sublist.map _).nodup h.distinct
  short := (List.length_filter_le keep top).trans h.short

/-- The seed's own entry, with the effort it takes now. -/
def entryOf (s : SeedRanking) (profile : SeedProfile) (task : SemanticTask) : RankedSeed :=
  ⟨profile.seedId, s.effortOf profile task⟩

/-- The entries that compete for the places of the list. -/
def competing (s : SeedRanking) (profile : SeedProfile) (task : SemanticTask)
    (top : List RankedSeed) : List RankedSeed :=
  (top.filter fun entry => entry.seedId ≠ profile.seedId) ++ [s.entryOf profile task]

theorem rankSeed_eq (s : SeedRanking) (profile : SeedProfile) (task : SemanticTask)
    (top : List RankedSeed) : s.rankSeed profile task top =
      (sortBy seedOrder (s.competing profile task top)).take topSeedsPerTask := rfl

theorem nodup_competing (h : (top.map RankedSeed.seedId).Nodup) :
    ((s.competing profile task top).map RankedSeed.seedId).Nodup := by
  unfold competing
  rw [List.map_append, List.nodup_append]
  refine ⟨(List.filter_sublist.map _).nodup h, List.nodup_singleton _, fun id hid id' hid' heq => ?_⟩
  obtain ⟨entry, hentry, rfl⟩ := List.mem_map.1 hid
  have hne := of_decide_eq_true (List.mem_filter.1 hentry).2
  rw [List.map_singleton, List.mem_singleton] at hid'
  exact hne (heq.trans hid')

theorem mem_rankSeed {entry : RankedSeed} (h : entry ∈ s.rankSeed profile task top) :
    entry ∈ top ∧ entry.seedId ≠ profile.seedId ∨ entry = s.entryOf profile task := by
  have h := (List.mem_insertionSort _).1 (List.mem_of_mem_take h)
  obtain h | h := List.mem_append.1 h
  · obtain ⟨hmem, hne⟩ := List.mem_filter.1 h
    exact .inl ⟨hmem, of_decide_eq_true hne⟩
  · exact .inr (List.mem_singleton.1 h)

theorem topList_rankSeed (h : TopList top) : TopList (s.rankSeed profile task top) := by
  have hnodup : ((sortBy seedOrder (s.competing profile task top)).map RankedSeed.seedId).Nodup :=
    ((List.perm_insertionSort _ _).map _).nodup_iff.2 (nodup_competing h.distinct)
  rw [rankSeed_eq]
  refine ⟨?_, ((List.take_sublist _ _).map _).nodup hnodup, List.length_take_le _ _⟩
  refine List.Pairwise.sublist (List.take_sublist _ _) ?_
  exact ((pairwise_sortBy _).and (List.pairwise_map.1 hnodup)).imp fun h => before_of_seedOrder h.1 h.2

/-! ## All lists -/

/-- Every list is well formed, and a profile is stored under its own seed. -/
structure Shaped (s : SeedRanking) : Prop where
  own : ∀ (id : ℕ) (profile : SeedProfile), s.seedProfiles[id]? = some profile → profile.seedId = id
  lists : ∀ (taskId : Text) (top : List RankedSeed), s.topSeedsByTask[taskId]? = some top → TopList top

/-- The lists after the loop over some of the tasks. -/
def rankedIn (s : SeedRanking) (profile : SeedProfile) (tasks : List SemanticTask) :
    Std.ExtTreeMap Text (List RankedSeed) compare :=
  (tasks.foldl (s.rankStep profile (s.affected profile)) (s.topSeedsByTask, false)).1

theorem cacheSeedProfile_known (h : s.known profile = true) : (s.cacheSeedProfile profile).1 = s := by
  unfold cacheSeedProfile
  rw [if_pos h]

theorem cacheSeedProfile_new (h : s.known profile = false) : (s.cacheSeedProfile profile).1 =
    { s with
      seedProfiles := s.seedProfiles.insert profile.seedId profile
      topSeedsByTask := s.rankedIn profile s.plan.tasks } := by
  unfold cacheSeedProfile rankedIn
  rw [h]
  rfl

/-- One more task of the loop. -/
theorem getElem?_rankedIn_concat (tasks : List SemanticTask) (taskId : Text) :
    (s.rankedIn profile (tasks ++ [task]))[taskId]? =
      if s.affected profile task = true ∧ task.taskId = taskId then
        some (s.rankSeed profile task (((s.rankedIn profile tasks)[taskId]?).getD []))
      else (s.rankedIn profile tasks)[taskId]? := by
  unfold rankedIn
  rw [List.foldl_append, List.foldl_cons, List.foldl_nil]
  unfold rankStep
  dsimp only
  cases haffected : s.affected profile task with
  | false => simp
  | true =>
    simp only [Bool.not_true, Bool.false_eq_true, if_false, true_and]
    rw [getElem?_insert_eq]
    split
    · rename_i hid
      rw [hid]
    · rfl

theorem topList_rankedIn (h : Shaped s) (tasks : List SemanticTask) :
    ∀ (taskId : Text) (top : List RankedSeed),
      (s.rankedIn profile tasks)[taskId]? = some top → TopList top := by
  induction tasks using List.reverseRecOn with
  | nil => exact h.lists
  | append_singleton tasks task ih =>
    intro taskId top htop
    rw [getElem?_rankedIn_concat] at htop
    split at htop
    · rw [← Option.some.inj htop]
      refine topList_rankSeed ?_
      cases hbefore : (s.rankedIn profile tasks)[taskId]? with
      | none => exact .nil
      | some before => exact ih taskId before hbefore
    · exact ih taskId top htop

theorem Shaped.cacheSeedProfile (h : Shaped s) (profile : SeedProfile) :
    Shaped (s.cacheSeedProfile profile).1 := by
  cases hknown : s.known profile with
  | true => rwa [cacheSeedProfile_known hknown]
  | false =>
    rw [cacheSeedProfile_new hknown]
    refine ⟨fun id stored hid => ?_, topList_rankedIn h _⟩
    rw [getElem?_insert_eq] at hid
    split at hid
    · rename_i heq
      rw [← Option.some.inj hid, heq]
    · exact h.own id stored hid

/-- What is cached once a seed is invalidated. -/
theorem invalidateSeed_profiles (id id' : ℕ) : (s.invalidateSeed id).seedProfiles[id']? =
    if id = id' then none else s.seedProfiles[id']? := by
  unfold invalidateSeed
  split
  · rename_i hcached
    split
    · rename_i hid
      rw [← hid]
      refine Std.ExtTreeMap.getElem?_eq_none fun hmem => ?_
      rw [Std.ExtTreeMap.contains_iff_mem.2 hmem] at hcached
      cases hcached
    · rfl
  · rw [Std.ExtTreeMap.getElem?_erase]
    by_cases hid : id = id'
    · simp [hid]
    · simp [hid]

theorem invalidateSeed_plan (id : ℕ) : (s.invalidateSeed id).plan = s.plan := by
  unfold invalidateSeed
  split <;> rfl

theorem invalidateSeed_tops (id : ℕ) (taskId : Text) :
    (s.invalidateSeed id).topSeedsByTask[taskId]? = if s.seedProfiles.contains id then
      (s.topSeedsByTask[taskId]?).map fun top => top.filter fun entry => entry.seedId ≠ id
    else s.topSeedsByTask[taskId]? := by
  unfold invalidateSeed
  cases s.seedProfiles.contains id with
  | true => exact Std.ExtTreeMap.getElem?_map
  | false => rfl

theorem Shaped.invalidateSeed (h : Shaped s) (id : ℕ) : Shaped (s.invalidateSeed id) := by
  constructor
  · intro id' profile hprofile
    rw [invalidateSeed_profiles] at hprofile
    split at hprofile
    · cases hprofile
    · exact h.own id' profile hprofile
  · intro taskId top htop
    rw [invalidateSeed_tops] at htop
    split at htop
    · obtain ⟨before, hbefore, rfl⟩ := Option.map_eq_some_iff.1 htop
      exact (h.lists taskId before hbefore).filter _
    · exact h.lists taskId top htop

theorem Shaped.step (h : Shaped s) (op : Op) : Shaped (s.step op) := by
  cases op with
  | cacheSeedProfile profile => exact h.cacheSeedProfile profile
  | invalidateSeed id => exact h.invalidateSeed id

theorem shaped_new (plan : SemanticTaskPlan) : Shaped { plan := plan } where
  own id profile h := by simp at h
  lists taskId top h := by simp at h

/-! ## What the entries say -/

/-- The entry is that of a cached seed, with the effort that the task takes from it now. -/
def Accurate (s : SeedRanking) (taskId : Text) (entry : RankedSeed) : Prop :=
  ∃ profile, s.seedProfiles[entry.seedId]? = some profile ∧
    ∃ task ∈ s.plan.tasks, task.taskId = taskId ∧ entry.effort = s.effortOf profile task

/-- Every entry is accurate, and the profiles saw nothing in order that they did not cover. -/
structure Faithful (s : SeedRanking) : Prop where
  contained : ∀ (id : ℕ) (profile : SeedProfile), s.seedProfiles[id]? = some profile →
    profile.orderedTargetIds ⊆ profile.coveredTargetIds
  accurate : ∀ (taskId : Text) (top : List RankedSeed), s.topSeedsByTask[taskId]? = some top →
    ∀ entry ∈ top, Accurate s taskId entry

/-- An entry during the loop: the old one of another seed, the new one of the seed itself, or still
the old one of the seed while no task with this id was affected. -/
def Updated (s : SeedRanking) (profile : SeedProfile) (tasks : List SemanticTask) (taskId : Text)
    (entry : RankedSeed) : Prop :=
  (entry.seedId ≠ profile.seedId ∧ Accurate s taskId entry) ∨
    (∃ task ∈ s.plan.tasks, task.taskId = taskId ∧ entry = s.entryOf profile task) ∨
    (entry.seedId = profile.seedId ∧ Accurate s taskId entry ∧
      ∀ task ∈ tasks, task.taskId = taskId → s.affected profile task = false)

theorem updated_rankedIn (h : Faithful s) {tasks : List SemanticTask} (hsub : tasks ⊆ s.plan.tasks) :
    ∀ (taskId : Text) (top : List RankedSeed), (s.rankedIn profile tasks)[taskId]? = some top →
      ∀ entry ∈ top, Updated s profile tasks taskId entry := by
  induction tasks using List.reverseRecOn with
  | nil =>
    intro taskId top htop entry hentry
    have haccurate := h.accurate taskId top htop entry hentry
    by_cases hid : entry.seedId = profile.seedId
    · exact .inr (.inr ⟨hid, haccurate, fun task htask => absurd htask List.not_mem_nil⟩)
    · exact .inl ⟨hid, haccurate⟩
  | append_singleton tasks task ih =>
    have ih := ih fun other hother => hsub (List.mem_append_left _ hother)
    have htask : task ∈ s.plan.tasks := hsub (List.mem_append_right _ List.mem_cons_self)
    intro taskId top htop entry hentry
    rw [getElem?_rankedIn_concat] at htop
    split at htop
    · rename_i haffected
      rw [← Option.some.inj htop] at hentry
      obtain ⟨hbefore, hne⟩ | hnew := mem_rankSeed hentry
      · cases hold : (s.rankedIn profile tasks)[taskId]? with
        | none =>
          rw [hold] at hbefore
          cases hbefore
        | some before =>
          rw [hold] at hbefore
          obtain hother | ⟨other, _, _, rfl⟩ | ⟨heq, _⟩ := ih taskId before hold entry hbefore
          · exact .inl hother
          · exact absurd rfl hne
          · exact absurd heq hne
      · exact .inr (.inl ⟨task, htask, haffected.2, hnew⟩)
    · rename_i haffected
      obtain hother | hnew | ⟨hid, haccurate, hnone⟩ := ih taskId top htop entry hentry
      · exact .inl hother
      · exact .inr (.inl hnew)
      · refine .inr (.inr ⟨hid, haccurate, fun other hother htaskId => ?_⟩)
        obtain hother | hother := List.mem_append.1 hother
        · exact hnone other hother htaskId
        · obtain rfl := List.mem_singleton.1 hother
          exact Bool.eq_false_iff.2 fun haff => haffected ⟨haff, htaskId⟩

/-- A seed takes the same effort from a task that neither its old nor its new profile affects. -/
theorem effortOf_eq_of_not_affected (h : Faithful s) {stored : SeedProfile}
    (hordered : profile.orderedTargetIds ⊆ profile.coveredTargetIds)
    (hstored : s.seedProfiles[profile.seedId]? = some stored) (hnot : s.affected profile task = false) :
    s.effortOf stored task = s.effortOf profile task := by
  unfold affected at hnot
  rw [hstored, Option.any_some, Bool.or_eq_false_iff, Bool.or_eq_false_iff] at hnot
  unfold effortOf
  rw [effort_unaffected _ hordered hnot.1.2, effort_unaffected _ (h.contained _ _ hstored) hnot.2]

theorem Faithful.cacheSeedProfile (h : Faithful s) (profile : SeedProfile)
    (hordered : profile.orderedTargetIds ⊆ profile.coveredTargetIds) :
    Faithful (s.cacheSeedProfile profile).1 := by
  cases hknown : s.known profile with
  | true => rwa [cacheSeedProfile_known hknown]
  | false =>
    rw [cacheSeedProfile_new hknown]
    constructor
    · intro id stored hid
      rw [getElem?_insert_eq] at hid
      split at hid
      · rw [← Option.some.inj hid]
        exact hordered
      · exact h.contained id stored hid
    · intro taskId top htop entry hentry
      unfold Accurate
      rw [getElem?_insert_eq]
      obtain ⟨hne, stored, hstored, task, htask, hid, heffort⟩ | ⟨task, htask, hid, rfl⟩ |
        ⟨heq, ⟨stored, hstored, task, htask, hid, heffort⟩, hnone⟩ :=
        updated_rankedIn h (List.Subset.refl _) taskId top htop entry hentry
      · rw [if_neg (Ne.symm hne)]
        exact ⟨stored, hstored, task, htask, hid, heffort⟩
      · rw [if_pos (show profile.seedId = (s.entryOf profile task).seedId from rfl)]
        exact ⟨profile, rfl, task, htask, hid, rfl⟩
      · rw [if_pos heq.symm]
        rw [heq] at hstored
        refine ⟨profile, rfl, task, htask, hid, heffort.trans ?_⟩
        exact effortOf_eq_of_not_affected h hordered hstored (hnone task htask hid)

theorem Faithful.invalidateSeed (h : Faithful s) (id : ℕ) : Faithful (s.invalidateSeed id) := by
  have hplan := s.invalidateSeed_plan id
  have heffort : ∀ profile task, (s.invalidateSeed id).effortOf profile task = s.effortOf profile task := by
    intro profile task
    unfold effortOf normalization
    rw [hplan]
  cases hcached : s.seedProfiles.contains id with
  | false =>
    have hsame : s.invalidateSeed id = s := by
      unfold SeedRanking.invalidateSeed
      rw [hcached]
      rfl
    rwa [hsame]
  | true =>
    constructor
    · intro id' profile hprofile
      rw [invalidateSeed_profiles] at hprofile
      split at hprofile
      · cases hprofile
      · exact h.contained id' profile hprofile
    · intro taskId top htop entry hentry
      rw [invalidateSeed_tops, hcached, if_pos rfl] at htop
      obtain ⟨before, hbefore, rfl⟩ := Option.map_eq_some_iff.1 htop
      obtain ⟨hentry, hne⟩ := List.mem_filter.1 hentry
      obtain ⟨profile, hprofile, task, htask, hid, hentryEffort⟩ :=
        h.accurate taskId before hbefore entry hentry
      refine ⟨profile, ?_, task, ?_, hid, ?_⟩
      · rwa [invalidateSeed_profiles, if_neg (Ne.symm (of_decide_eq_true hne))]
      · rwa [hplan]
      · rwa [heffort]

theorem Faithful.step (h : Faithful s) {op : Op}
    (hop : ∀ profile, op = .cacheSeedProfile profile →
      profile.orderedTargetIds ⊆ profile.coveredTargetIds) : Faithful (s.step op) := by
  cases op with
  | cacheSeedProfile profile => exact h.cacheSeedProfile profile (hop profile rfl)
  | invalidateSeed id => exact h.invalidateSeed id

theorem step_plan (s : SeedRanking) (op : Op) : (s.step op).plan = s.plan := by
  cases op with
  | cacheSeedProfile profile =>
    unfold step
    cases hknown : s.known profile with
    | true =>
      dsimp only
      rw [cacheSeedProfile_known hknown]
    | false =>
      dsimp only
      rw [cacheSeedProfile_new hknown]
  | invalidateSeed id => exact s.invalidateSeed_plan id

theorem run_concat (plan : SemanticTaskPlan) (ops : List Op) (op : Op) :
    run plan (ops ++ [op]) = (run plan ops).step op := by
  unfold run
  rw [List.foldl_append]
  rfl

theorem run_plan (plan : SemanticTaskPlan) (ops : List Op) : (run plan ops).plan = plan := by
  induction ops using List.reverseRecOn with
  | nil => rfl
  | append_singleton ops op ih => rw [run_concat, step_plan, ih]

theorem shaped_run (plan : SemanticTaskPlan) (ops : List Op) : Shaped (run plan ops) := by
  induction ops using List.reverseRecOn with
  | nil => exact shaped_new plan
  | append_singleton ops op ih =>
    rw [run_concat]
    exact ih.step op

theorem faithful_run (plan : SemanticTaskPlan) {ops : List Op}
    (hops : ∀ profile, Op.cacheSeedProfile profile ∈ ops →
      profile.orderedTargetIds ⊆ profile.coveredTargetIds) : Faithful (run plan ops) := by
  induction ops using List.reverseRecOn with
  | nil => exact ⟨fun id profile h => by simp [run] at h, fun taskId top h => by simp [run] at h⟩
  | append_singleton ops op ih =>
    rw [run_concat]
    have ih := ih fun profile hprofile => hops profile (List.mem_append_left _ hprofile)
    refine ih.step fun profile heq => hops profile ?_
    rw [heq]
    exact List.mem_append_right _ List.mem_cons_self

/-- **The lists of the best seeds are well formed and accurate** after any calls, when every cached
profile covers what it saw in order: a list holds at most four different seeds by effort and then by
seed, each of them cached, with the effort that the task takes from its profile now. -/
theorem run_topSeeds (plan : SemanticTaskPlan) {ops : List Op}
    (hops : ∀ profile, Op.cacheSeedProfile profile ∈ ops →
      profile.orderedTargetIds ⊆ profile.coveredTargetIds)
    {taskId : Text} {top : List RankedSeed} (htop : (run plan ops).topSeedsByTask[taskId]? = some top) :
    top.Pairwise Before ∧ (top.map RankedSeed.seedId).Nodup ∧ top.length ≤ 4 ∧
      ∀ entry ∈ top, ∃ profile, (run plan ops).seedProfiles[entry.seedId]? = some profile ∧
        ∃ task ∈ plan.tasks, task.taskId = taskId ∧
          entry.effort = effort profile task ((plan.normalizationByPou[task.pou]?).getD {}) := by
  have hlist := (shaped_run plan ops).lists taskId top htop
  refine ⟨hlist.sorted, hlist.distinct, hlist.short, fun entry hentry => ?_⟩
  obtain ⟨profile, hprofile, task, htask, hid, heffort⟩ :=
    (faithful_run plan hops).accurate taskId top htop entry hentry
  unfold effortOf normalization at heffort
  rw [run_plan] at htask heffort
  exact ⟨profile, hprofile, task, htask, hid, heffort⟩

/-- A task with one waypoint. -/
def waypointTask : SemanticTask where
  taskId := "T".toList
  taskKind := "reach".toList
  pou := "P".toList
  terminalTargetId := "t".toList
  orderedWaypoints := ["t".toList]

/-- A seed that has shown the waypoint. -/
def waypointSeed (id : ℕ) : SeedProfile where
  seedId := id
  orderedTargetIds := ["t".toList]
  coveredTargetIds := ["t".toList]

/-- Two seeds show the waypoint, the first of them is cached again without it, a third shows it, and
the second is taken back. -/
def waypointOps : List Op :=
  [.cacheSeedProfile (waypointSeed 0), .cacheSeedProfile (waypointSeed 1),
    .cacheSeedProfile { seedId := 0 }, .cacheSeedProfile (waypointSeed 2), .invalidateSeed 1]

theorem run_topSeeds_waypoint :
    (run { tasks := [waypointTask] } waypointOps).topSeedsByTask["T".toList]? =
      some [⟨2, 0⟩, ⟨0, 1⟩] ∧
    List.Pairwise Before [⟨2, 0⟩, ⟨0, 1⟩] ∧
    ∀ entry ∈ ([⟨2, 0⟩, ⟨0, 1⟩] : List RankedSeed), ∃ profile,
      (run { tasks := [waypointTask] } waypointOps).seedProfiles[entry.seedId]? = some profile ∧
      ∃ task ∈ [waypointTask], task.taskId = "T".toList ∧ entry.effort = effort profile task {} := by
  have hops : ∀ profile, Op.cacheSeedProfile profile ∈ waypointOps →
      profile.orderedTargetIds ⊆ profile.coveredTargetIds := by
    intro profile hprofile
    unfold waypointOps at hprofile
    simp only [List.mem_cons, Op.cacheSeedProfile.injEq, reduceCtorEq, List.not_mem_nil,
      or_false] at hprofile
    obtain rfl | rfl | rfl | rfl := hprofile <;> exact List.Subset.refl _
  have htop : (run { tasks := [waypointTask] } waypointOps).topSeedsByTask["T".toList]? =
      some [⟨2, 0⟩, ⟨0, 1⟩] := by
    decide +kernel
  obtain ⟨hsorted, -, -, haccurate⟩ := run_topSeeds { tasks := [waypointTask] } hops htop
  refine ⟨htop, hsorted, fun entry hentry => ?_⟩
  obtain ⟨profile, hprofile, task, htask, hid, heffort⟩ := haccurate entry hentry
  exact ⟨profile, hprofile, task, htask, hid, heffort⟩

/-! ## The seed of the least effort -/

def listOf (s : SeedRanking) (task : SemanticTask) : List RankedSeed :=
  (s.topSeedsByTask[task.taskId]?).getD []

/-- The profile is cached and affects the task. -/
structure Candidate (s : SeedRanking) (task : SemanticTask) (profile : SeedProfile) : Prop where
  cached : s.seedProfiles[profile.seedId]? = some profile
  affects : taskAffectedBySeed task profile = true

/-- The list has a first entry, and it is no more effort than this. -/
def HeadWithin (top : List RankedSeed) (x : ℚ) : Prop :=
  ∃ head, top.head? = some head ∧ head.effort ≤ x

/-- The first seed of every task is the least effort of all that affect it. -/
def Optimal (s : SeedRanking) : Prop :=
  ∀ task ∈ s.plan.tasks, ∀ profile, s.Candidate task profile →
    HeadWithin (s.listOf task) (s.effortOf profile task)

/-- A candidate that the list of the task has no place for. -/
structure Lost (s : SeedRanking) (task : SemanticTask) (profile : SeedProfile) : Prop where
  candidate : s.Candidate task profile
  unlisted : ∀ entry ∈ s.listOf task, entry.seedId ≠ profile.seedId

/-- Without the seed the list still has an entry that is no more effort than the profile. -/
def SparedBy (s : SeedRanking) (task : SemanticTask) (id : ℕ) (profile : SeedProfile) : Prop :=
  ∃ entry ∈ s.listOf task, entry.seedId ≠ id ∧ entry.effort ≤ s.effortOf profile task

/-- The call does not take the last entry that beats a lost candidate. -/
def Spared (s : SeedRanking) : Op → Prop
  | .cacheSeedProfile profile => s.known profile = false → ∀ task ∈ s.plan.tasks,
    s.affected profile task = true → ∀ lost, s.Lost task lost → lost.seedId ≠ profile.seedId →
      s.effortOf profile task ≤ s.effortOf lost task ∨ s.SparedBy task profile.seedId lost
  | .invalidateSeed id => id ∈ s.seedProfiles → ∀ task ∈ s.plan.tasks,
    ∀ lost, s.Lost task lost → lost.seedId ≠ id → s.SparedBy task id lost

theorem headWithin_iff_of_sorted {x : ℚ} (h : top.Pairwise fun l r => l.effort ≤ r.effort) :
    HeadWithin top x ↔ ∃ entry ∈ top, entry.effort ≤ x := by
  constructor
  · rintro ⟨head, hhead, hle⟩
    exact ⟨head, List.mem_of_mem_head? hhead, hle⟩
  · rintro ⟨entry, hentry, hle⟩
    cases top with
    | nil => cases hentry
    | cons head rest =>
      refine ⟨head, rfl, ?_⟩
      obtain rfl | hentry := List.mem_cons.1 hentry
      · exact hle
      · exact ((List.pairwise_cons.1 h).1 entry hentry).trans hle

theorem TopList.headWithin_iff {x : ℚ} (h : TopList top) :
    HeadWithin top x ↔ ∃ entry ∈ top, entry.effort ≤ x := by
  refine headWithin_iff_of_sorted (h.sorted.imp fun hbefore => ?_)
  obtain hlt | ⟨heq, -⟩ := hbefore
  · exact hlt.le
  · exact heq.le

/-- The first of a list is not one that was cut off. -/
theorem headWithin_rankSeed_iff {x : ℚ} : HeadWithin (s.rankSeed profile task top) x ↔
    s.effortOf profile task ≤ x ∨
      ∃ entry ∈ top, entry.seedId ≠ profile.seedId ∧ entry.effort ≤ x := by
  have hhead : HeadWithin (s.rankSeed profile task top) x ↔
      HeadWithin (sortBy seedOrder (s.competing profile task top)) x := by
    unfold HeadWithin
    rw [rankSeed_eq]
    cases sortBy seedOrder (s.competing profile task top) <;> rfl
  rw [hhead, headWithin_iff_of_sorted]
  · constructor
    · rintro ⟨entry, hentry, hle⟩
      obtain hentry | hentry := List.mem_append.1 ((List.mem_insertionSort _).1 hentry)
      · obtain ⟨hmem, hne⟩ := List.mem_filter.1 hentry
        exact .inr ⟨entry, hmem, of_decide_eq_true hne, hle⟩
      · rw [List.mem_singleton.1 hentry] at hle
        exact .inl hle
    · intro h
      obtain hle | ⟨entry, hentry, hne, hle⟩ := h
      · exact ⟨s.entryOf profile task, (List.mem_insertionSort _).2
          (List.mem_append_right _ List.mem_cons_self), hle⟩
      · exact ⟨entry, (List.mem_insertionSort _).2
          (List.mem_append_left _ (List.mem_filter.2 ⟨hentry, decide_eq_true hne⟩)), hle⟩
  · refine (pairwise_sortBy _).imp fun {l r} hle => ?_
    unfold seedOrder at hle
    cases heffort : compare l.effort r.effort with
    | lt => exact (compare_lt_iff_lt.1 heffort).le
    | eq => exact (Std.compare_eq_iff_eq.1 heffort).le
    | gt =>
      rw [heffort, Ordering.gt_then] at hle
      cases hle

/-- What a ranked seed takes is what its profile says, as long as it affects the task. -/
structure Fresh (s : SeedRanking) : Prop where
  entry : ∀ task ∈ s.plan.tasks, ∀ entry ∈ s.listOf task, ∀ profile,
    s.seedProfiles[entry.seedId]? = some profile → taskAffectedBySeed task profile = true →
      entry.effort = s.effortOf profile task

/-- The lists of tasks with different ids, once a profile is cached. -/
theorem listOf_rankedIn {tasks : List SemanticTask} (hids : (tasks.map SemanticTask.taskId).Nodup) :
    (∀ task ∈ tasks, ((s.rankedIn profile tasks)[task.taskId]?).getD [] =
      if s.affected profile task then s.rankSeed profile task (s.listOf task) else s.listOf task) ∧
    ∀ taskId, taskId ∉ tasks.map SemanticTask.taskId →
      (s.rankedIn profile tasks)[taskId]? = s.topSeedsByTask[taskId]? := by
  induction tasks using List.reverseRecOn with
  | nil => exact ⟨fun task htask => absurd htask List.not_mem_nil, fun _ _ => rfl⟩
  | append_singleton tasks last ih =>
    rw [List.map_append, List.nodup_append] at hids
    obtain ⟨ihin, ihout⟩ := ih hids.1
    have hlast : last.taskId ∉ tasks.map SemanticTask.taskId := fun hmem =>
      hids.2.2 _ hmem _ List.mem_cons_self rfl
    refine ⟨fun task htask => ?_, fun taskId hout => ?_⟩
    · rw [getElem?_rankedIn_concat]
      obtain htask | htask := List.mem_append.1 htask
      · have hne : last.taskId ≠ task.taskId := fun heq => hlast (heq ▸ List.mem_map_of_mem htask)
        rw [if_neg fun h => hne h.2]
        exact ihin task htask
      · obtain rfl := List.mem_singleton.1 htask
        rw [ihout _ hlast]
        by_cases haffected : s.affected profile task = true
        · rw [if_pos ⟨haffected, rfl⟩, if_pos haffected]
          rfl
        · rw [if_neg fun h => haffected h.1, if_neg haffected]
          rfl
    · rw [List.map_append, List.mem_append, not_or] at hout
      rw [getElem?_rankedIn_concat, ihout taskId hout.1, if_neg]
      exact fun h => hout.2 (List.mem_singleton.2 h.2.symm)

section Steps

theorem listOf_cacheSeedProfile (hids : (s.plan.tasks.map SemanticTask.taskId).Nodup) (hknown : s.known profile = false) (htask : task ∈ s.plan.tasks) :
    (s.cacheSeedProfile profile).1.listOf task =
      if s.affected profile task then s.rankSeed profile task (s.listOf task) else s.listOf task := by
  unfold listOf
  rw [cacheSeedProfile_new hknown]
  exact (listOf_rankedIn hids).1 task htask

theorem effortOf_step (op : Op) (profile : SeedProfile) (task : SemanticTask) :
    (s.step op).effortOf profile task = s.effortOf profile task := by
  unfold effortOf normalization
  rw [step_plan]

/-- A candidate is the cached profile or an old one of another seed. -/
theorem Candidate.of_cacheSeedProfile (hknown : s.known profile = false) {other : SeedProfile}
    (h : (s.cacheSeedProfile profile).1.Candidate task other) :
    other = profile ∨ other.seedId ≠ profile.seedId ∧ s.Candidate task other := by
  obtain ⟨hcached, haffects⟩ := h
  rw [cacheSeedProfile_new hknown, getElem?_insert_eq] at hcached
  by_cases hid : profile.seedId = other.seedId
  · rw [if_pos hid] at hcached
    exact .inl (Option.some.inj hcached).symm
  · rw [if_neg hid] at hcached
    exact .inr ⟨Ne.symm hid, hcached, haffects⟩

theorem Candidate.cacheSeedProfile (hknown : s.known profile = false) {other : SeedProfile}
    (h : s.Candidate task other) (hne : other.seedId ≠ profile.seedId) :
    (s.cacheSeedProfile profile).1.Candidate task other := by
  refine ⟨?_, h.affects⟩
  rw [cacheSeedProfile_new hknown, getElem?_insert_eq, if_neg (Ne.symm hne)]
  exact h.cached

theorem candidate_invalidateSeed_iff {id : ℕ} {other : SeedProfile} :
    (s.invalidateSeed id).Candidate task other ↔ other.seedId ≠ id ∧ s.Candidate task other := by
  constructor
  · rintro ⟨hcached, haffects⟩
    rw [invalidateSeed_profiles] at hcached
    split at hcached
    · cases hcached
    · rename_i hid
      exact ⟨Ne.symm hid, hcached, haffects⟩
  · rintro ⟨hne, hcached, haffects⟩
    refine ⟨?_, haffects⟩
    rw [invalidateSeed_profiles, if_neg (Ne.symm hne)]
    exact hcached

theorem listOf_invalidateSeed {id : ℕ} (hcached : id ∈ s.seedProfiles) (task : SemanticTask) :
    (s.invalidateSeed id).listOf task = (s.listOf task).filter fun entry => entry.seedId ≠ id := by
  unfold listOf
  rw [invalidateSeed_tops, if_pos (Std.ExtTreeMap.contains_iff_mem.2 hcached)]
  cases s.topSeedsByTask[task.taskId]? <;> rfl

theorem Fresh.cacheSeedProfile (h : Fresh s) (hids : (s.plan.tasks.map SemanticTask.taskId).Nodup)
    (profile : SeedProfile) : Fresh (s.cacheSeedProfile profile).1 := by
  cases hknown : s.known profile with
  | true => rwa [cacheSeedProfile_known hknown]
  | false =>
    have heffort := effortOf_step (s := s) (.cacheSeedProfile profile)
    have hplan := s.step_plan (.cacheSeedProfile profile)
    unfold step at heffort hplan
    dsimp only at heffort hplan
    constructor
    intro task htask entry hentry stored hstored haffects
    rw [hplan] at htask
    rw [heffort]
    rw [listOf_cacheSeedProfile hids hknown htask] at hentry
    rw [cacheSeedProfile_new hknown, getElem?_insert_eq] at hstored
    split at hentry
    · obtain ⟨hbefore, hne⟩ | hnew := mem_rankSeed hentry
      · rw [if_neg (Ne.symm hne)] at hstored
        exact h.entry task htask entry hbefore stored hstored haffects
      · rw [hnew] at hstored ⊢
        rw [if_pos (show profile.seedId = (s.entryOf profile task).seedId from rfl)] at hstored
        rw [← Option.some.inj hstored]
        rfl
    · rename_i hnot
      split at hstored
      · rw [← Option.some.inj hstored] at haffects
        unfold affected at hnot
        simp [haffects] at hnot
      · exact h.entry task htask entry hentry stored hstored haffects

theorem invalidateSeed_of_not_mem {id : ℕ} (h : id ∉ s.seedProfiles) : s.invalidateSeed id = s := by
  unfold SeedRanking.invalidateSeed
  rw [← Std.ExtTreeMap.contains_iff_mem, Bool.not_eq_true] at h
  rw [h]
  rfl

theorem Fresh.invalidateSeed (h : Fresh s) (id : ℕ) : Fresh (s.invalidateSeed id) := by
  by_cases hcached : id ∈ s.seedProfiles
  · constructor
    intro task htask entry hentry stored hstored haffects
    rw [invalidateSeed_plan] at htask
    rw [listOf_invalidateSeed hcached] at hentry
    rw [invalidateSeed_profiles] at hstored
    split at hstored
    · cases hstored
    · refine (h.entry task htask entry (List.mem_of_mem_filter hentry) stored hstored haffects).trans ?_
      exact (effortOf_step (.invalidateSeed id) stored task).symm
  · rwa [invalidateSeed_of_not_mem hcached]

theorem Fresh.step (h : Fresh s) (hids : (s.plan.tasks.map SemanticTask.taskId).Nodup) (op : Op) :
    Fresh (s.step op) := by
  cases op with
  | cacheSeedProfile profile => exact h.cacheSeedProfile hids profile
  | invalidateSeed id => exact h.invalidateSeed id

/-- A candidate that is listed competes with its own effort. -/
theorem Candidate.listed_or_lost (hfresh : Fresh s) (htask : task ∈ s.plan.tasks)
    (h : s.Candidate task profile) : s.Lost task profile ∨
      ∃ entry ∈ s.listOf task, entry.seedId = profile.seedId ∧ entry.effort = s.effortOf profile task := by
  by_cases hlisted : ∃ entry ∈ s.listOf task, entry.seedId = profile.seedId
  · obtain ⟨entry, hentry, hid⟩ := hlisted
    refine .inr ⟨entry, hentry, hid, hfresh.entry task htask entry hentry profile ?_ h.affects⟩
    rw [hid]
    exact h.cached
  · exact .inl ⟨h, fun entry hentry hid => hlisted ⟨entry, hentry, hid⟩⟩

/-- **Caching a profile keeps the first seeds optimal exactly when it spares the lost candidates.** -/
theorem optimal_cacheSeedProfile_iff (hids : (s.plan.tasks.map SemanticTask.taskId).Nodup)
    (hfresh : Fresh s) (hoptimal : Optimal s) (profile : SeedProfile) :
    Optimal (s.cacheSeedProfile profile).1 ↔ Spared s (.cacheSeedProfile profile) := by
  cases hknown : s.known profile with
  | true =>
    rw [cacheSeedProfile_known hknown]
    exact ⟨fun _ h => absurd (hknown.symm.trans h) (by decide), fun _ => hoptimal⟩
  | false =>
    have heffort := effortOf_step (s := s) (.cacheSeedProfile profile)
    have hplan := s.step_plan (.cacheSeedProfile profile)
    unfold step at heffort hplan
    dsimp only at heffort hplan
    constructor
    · intro h _ task htask haffected lost hlost hne
      have hhead := h task (hplan ▸ htask) lost (hlost.candidate.cacheSeedProfile hknown hne)
      rwa [listOf_cacheSeedProfile hids hknown htask, if_pos haffected, heffort,
        headWithin_rankSeed_iff] at hhead
    · intro h task htask other hother
      rw [hplan] at htask
      rw [listOf_cacheSeedProfile hids hknown htask, heffort]
      by_cases haffected : s.affected profile task = true
      · rw [if_pos haffected, headWithin_rankSeed_iff]
        obtain rfl | ⟨hne, hcandidate⟩ := hother.of_cacheSeedProfile hknown
        · exact .inl le_rfl
        · obtain hlost | ⟨entry, hentry, hid, hle⟩ := hcandidate.listed_or_lost hfresh htask
          · exact h hknown task htask haffected other hlost hne
          · exact .inr ⟨entry, hentry, hid ▸ hne, hle.le⟩
      · rw [if_neg haffected]
        obtain rfl | ⟨-, hcandidate⟩ := hother.of_cacheSeedProfile hknown
        · unfold affected at haffected
          simp [hother.affects] at haffected
        · exact hoptimal task htask other hcandidate

/-- **Invalidating a seed keeps the first seeds optimal exactly when it spares the lost candidates.** -/
theorem optimal_invalidateSeed_iff (hshaped : Shaped s) (hfresh : Fresh s) (hoptimal : Optimal s)
    (id : ℕ) : Optimal (s.invalidateSeed id) ↔ Spared s (.invalidateSeed id) := by
  by_cases hcached : id ∈ s.seedProfiles
  · have heffort := effortOf_step (s := s) (.invalidateSeed id)
    unfold step at heffort
    dsimp only at heffort
    have hhead : ∀ task x, HeadWithin ((s.invalidateSeed id).listOf task) x ↔
        ∃ entry ∈ s.listOf task, entry.seedId ≠ id ∧ entry.effort ≤ x := by
      intro task x
      have hlist : TopList ((s.invalidateSeed id).listOf task) := by
        unfold listOf
        cases htop : (s.invalidateSeed id).topSeedsByTask[task.taskId]? with
        | none => exact .nil
        | some top => exact (hshaped.invalidateSeed id).lists _ top htop
      rw [hlist.headWithin_iff, listOf_invalidateSeed hcached]
      simp only [List.mem_filter, decide_eq_true_eq, and_assoc]
    constructor
    · intro h _ task htask lost hlost hne
      rw [← s.invalidateSeed_plan id] at htask
      have hlost := h task htask lost (candidate_invalidateSeed_iff.2 ⟨hne, hlost.candidate⟩)
      rwa [hhead, heffort] at hlost
    · intro h task htask other hother
      rw [s.invalidateSeed_plan id] at htask
      obtain ⟨hne, hcandidate⟩ := candidate_invalidateSeed_iff.1 hother
      rw [hhead, heffort]
      obtain hlost | ⟨entry, hentry, hid, hle⟩ := hcandidate.listed_or_lost hfresh htask
      · exact h hcached task htask other hlost hne
      · exact ⟨entry, hentry, hid ▸ hne, hle.le⟩
  · rw [invalidateSeed_of_not_mem hcached]
    exact ⟨fun _ h => absurd h hcached, fun _ => hoptimal⟩

end Steps

theorem fresh_run {plan : SemanticTaskPlan} (hids : (plan.tasks.map SemanticTask.taskId).Nodup)
    (ops : List Op) : Fresh (run plan ops) := by
  induction ops using List.reverseRecOn with
  | nil => exact ⟨fun task _ entry hentry => by simp [run, listOf] at hentry⟩
  | append_singleton ops op ih =>
    rw [run_concat]
    exact ih.step (by rwa [run_plan]) op

/-- **The first seed of every task is the best of those that affect it exactly as long as the calls
spare the lost candidates.** A list that has lost a candidate is never filled up again, so the calls
must leave an entry that beats it. -/
theorem run_optimal_iff {plan : SemanticTaskPlan} (hids : (plan.tasks.map SemanticTask.taskId).Nodup)
    (ops : List Op) : (∀ before, before <+: ops → Optimal (run plan before)) ↔
      ∀ before op, before ++ [op] <+: ops → Spared (run plan before) op := by
  have hstep : ∀ before op, Optimal (run plan before) →
      (Optimal (run plan (before ++ [op])) ↔ Spared (run plan before) op) := by
    intro before op hoptimal
    have hids : ((run plan before).plan.tasks.map SemanticTask.taskId).Nodup := by rwa [run_plan]
    have hfresh := fresh_run (by rwa [run_plan] at hids) before
    rw [run_concat]
    cases op with
    | cacheSeedProfile profile => exact optimal_cacheSeedProfile_iff hids hfresh hoptimal profile
    | invalidateSeed id => exact optimal_invalidateSeed_iff (shaped_run plan before) hfresh hoptimal id
  constructor
  · intro h before op hprefix
    exact (hstep before op (h before ((List.prefix_append _ _).trans hprefix))).1 (h _ hprefix)
  · intro h before
    induction before using List.reverseRecOn with
    | nil =>
      intro _ task _ profile hprofile
      have := hprofile.cached
      simp [run] at this
    | append_singleton before op ih =>
      intro hprefix
      have hoptimal := ih ((List.prefix_append _ _).trans hprefix)
      exact (hstep before op hoptimal).2 (h before op hprefix)

/-- Five seeds that have shown the waypoint, of which the four that are listed are invalidated. -/
def fiveSeeds : List Op :=
  (List.range 5).map (fun id => .cacheSeedProfile (waypointSeed id)) ++
    (List.range 4).map fun id => .invalidateSeed id

def waypointPlan : SemanticTaskPlan := { tasks := [waypointTask] }

theorem run_optimal_fiveSeeds : (∀ before, before <+: fiveSeeds → Optimal (run waypointPlan before)) ↔
    ∀ before op, before ++ [op] <+: fiveSeeds → Spared (run waypointPlan before) op :=
  run_optimal_iff (show (waypointPlan.tasks.map SemanticTask.taskId).Nodup from List.nodup_singleton _)
    fiveSeeds

theorem not_optimal_fiveSeeds : ¬ Optimal (run waypointPlan fiveSeeds) := by
  intro h
  have hcached : ((run waypointPlan fiveSeeds).seedProfiles[4]?).any (fun profile =>
    taskAffectedBySeed waypointTask profile && profile.seedId == 4) = true := by decide +kernel
  have hempty : (run waypointPlan fiveSeeds).listOf waypointTask = [] := by decide +kernel
  obtain ⟨profile, hprofile, hseed⟩ := (Option.any_eq_true _ _).1 hcached
  obtain ⟨haffects, hid⟩ := Bool.and_eq_true_iff.1 hseed
  have hid : profile.seedId = 4 := beq_iff_eq.1 hid
  obtain ⟨head, hhead, -⟩ := h waypointTask List.mem_cons_self profile ⟨by rw [hid, hprofile], haffects⟩
  rw [hempty] at hhead
  cases hhead

end SeedRanking

end SemantiST.Semantic.Exact
