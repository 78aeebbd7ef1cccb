import SemantiST.Semantic.Invalidation

/-!
# The order in which seeds arrive

The best seeds of a task are kept while profiles arrive one by one.  They are the least of those
that affect the task, whatever the order; but the first profile of all is ranked for every task.
-/

namespace SemantiST.Semantic

open Lib

/-! ## The best seeds of a task -/

/-- The order of the seeds of a task: by effort, then by seed. -/
def seedOrder (left right : RankedSeed) : Ordering :=
  (totalCmp left.effort right.effort).then (compare left.seedId right.seedId)

/-- The key that `total_cmp` compares. -/
def totalKey (x : Float) : ℤ :=
  let bits : ℕ := x.toBits.toNat
  if bits < 2 ^ 63 then (bits : ℤ) else -1 - ((bits : ℤ) - 2 ^ 63)

instance : Std.TransCmp seedOrder :=
  inferInstanceAs (Std.TransCmp (compareLex (compareOn fun entry : RankedSeed => totalKey entry.effort)
    (compareOn RankedSeed.seedId)))

theorem seedId_eq_of_seedOrder {left right : RankedSeed} (h : seedOrder left right = .eq) :
    left.seedId = right.seedId := by
  unfold seedOrder at h
  rw [Ordering.then_eq_eq] at h
  exact Std.LawfulEqCmp.eq_of_compare h.2

/-- What a seed is ranked with. -/
def rankedSeed (plan : SemanticTaskPlan) (task : SemanticTask) (profile : SeedProfile) : RankedSeed :=
  ⟨profile.seedId, effort profile task ((plan.normalizationByPou[task.pou]?).getD {})⟩

/-- The profiles that are ranked for a task: the first one, and those that affect the task. -/
def rankedProfiles (task : SemanticTask) : List SeedProfile → List SeedProfile
  | [] => []
  | first :: rest => first :: rest.filter (taskAffectedBySeed task)

/-- The best seeds of a task for the profiles, in any order. -/
def bestSeeds (plan : SemanticTaskPlan) (task : SemanticTask) (profiles : List SeedProfile) :
    List RankedSeed :=
  (sortBy seedOrder ((rankedProfiles task profiles).map (rankedSeed plan task))).take topSeedsPerTask

theorem rankedProfiles_concat {task : SemanticTask} {profiles : List SeedProfile}
    {profile : SeedProfile} (h : profiles ≠ []) : rankedProfiles task (profiles ++ [profile]) =
      rankedProfiles task profiles ++ if taskAffectedBySeed task profile then [profile] else [] := by
  cases profiles with
  | nil => exact absurd rfl h
  | cons first rest =>
    rw [List.cons_append, rankedProfiles, rankedProfiles, List.filter_append, List.cons_append]
    split
    · rename_i haffected
      rw [List.filter_cons_of_pos haffected, List.filter_nil]
    · rename_i haffected
      rw [List.filter_cons_of_neg haffected, List.filter_nil]

theorem rankedProfiles_sublist (task : SemanticTask) (profiles : List SeedProfile) :
    (rankedProfiles task profiles).Sublist profiles := by
  cases profiles with
  | nil => exact List.Sublist.refl _
  | cons first rest => exact List.filter_sublist.cons_cons first

/-- Seeds with different ids are told apart. -/
theorem eq_of_seedOrder {plan : SemanticTaskPlan} {task : SemanticTask} {profiles : List SeedProfile}
    (hids : (profiles.map SeedProfile.seedId).Nodup) {left right : RankedSeed}
    (hleft : left ∈ profiles.map (rankedSeed plan task))
    (hright : right ∈ profiles.map (rankedSeed plan task)) (h : seedOrder left right = .eq) :
    left = right := by
  obtain ⟨profile, hprofile, rfl⟩ := List.mem_map.1 hleft
  obtain ⟨profile', hprofile', rfl⟩ := List.mem_map.1 hright
  rw [List.inj_on_of_nodup_map hids hprofile hprofile' (seedId_eq_of_seedOrder h)]

/-- **The best seeds do not depend on the order** of the profiles, given the first one. -/
theorem bestSeeds_congr {plan : SemanticTaskPlan} {task : SemanticTask}
    {profiles profiles' : List SeedProfile} (hids : (profiles.map SeedProfile.seedId).Nodup)
    (h : (rankedProfiles task profiles).Perm (rankedProfiles task profiles')) :
    bestSeeds plan task profiles = bestSeeds plan task profiles' := by
  have hnodup : ((rankedProfiles task profiles).map SeedProfile.seedId).Nodup :=
    ((rankedProfiles_sublist task profiles).map _).nodup hids
  unfold bestSeeds
  rw [sortBy_congr (h.map _) fun left hleft right hright => eq_of_seedOrder hnodup hleft hright]

/-- The ranked profiles are the same when the first ones are, or affect the task. -/
theorem rankedProfiles_perm {task : SemanticTask} {profiles profiles' : List SeedProfile}
    (h : profiles.Perm profiles')
    (hfirst : profiles.head? = profiles'.head? ∨ ∀ first,
      profiles.head? = some first ∨ profiles'.head? = some first →
        taskAffectedBySeed task first = true) :
    (rankedProfiles task profiles).Perm (rankedProfiles task profiles') := by
  rcases profiles with _ | ⟨first, rest⟩
  · rw [List.nil_perm.1 h]
  · rcases profiles' with _ | ⟨first', rest'⟩
    · exact absurd (List.perm_nil.1 h) (List.cons_ne_nil _ _)
    · rcases hfirst with heq | haffected
      · obtain rfl := Option.some.inj heq
        exact ((List.perm_cons first).1 h |>.filter _).cons first
      · have hall := h.filter (taskAffectedBySeed task)
        rw [List.filter_cons_of_pos (haffected first (.inl rfl)),
          List.filter_cons_of_pos (haffected first' (.inr rfl))] at hall
        exact hall

namespace SemanticRuntimeMetadata

variable {s s' : SemanticRuntimeMetadata} {plan : SemanticTaskPlan} {mappedTargets : List Text}

theorem rankSeed_eq (s : SemanticRuntimeMetadata) (profile : SeedProfile) (task : SemanticTask)
    (top : List RankedSeed) : s.rankSeed profile task top =
      (sortBy seedOrder ((top.filter fun entry => entry.seedId ≠ profile.seedId) ++
        [rankedSeed s.plan task profile])).take topSeedsPerTask := rfl

/-- Ranking one more seed. -/
theorem rankSeed_bestSeeds (s : SemanticRuntimeMetadata) {profiles : List SeedProfile}
    {profile : SeedProfile} {task : SemanticTask} (hne : profiles ≠ [])
    (hids : ((profiles ++ [profile]).map SeedProfile.seedId).Nodup)
    (haffected : taskAffectedBySeed task profile = true) :
    s.rankSeed profile task (bestSeeds s.plan task profiles) =
      bestSeeds s.plan task (profiles ++ [profile]) := by
  have hconcat : rankedProfiles task (profiles ++ [profile]) = rankedProfiles task profiles ++ [profile] := by
    rw [rankedProfiles_concat hne, if_pos haffected]
  have hnodup : ((rankedProfiles task profiles ++ [profile]).map SeedProfile.seedId).Nodup :=
    hconcat ▸ ((rankedProfiles_sublist task _).map _).nodup hids
  -- the new seed is not among those ranked before
  have hfilter : (bestSeeds s.plan task profiles).filter (fun entry => entry.seedId ≠ profile.seedId) =
      bestSeeds s.plan task profiles := by
    refine List.filter_eq_self.2 fun entry hentry => ?_
    have hentry := (List.mem_insertionSort _).1 (List.mem_of_mem_take hentry)
    obtain ⟨other, hother, rfl⟩ := List.mem_map.1 hentry
    rw [List.map_append, List.nodup_append] at hnodup
    exact decide_eq_true (hnodup.2.2 _ (List.mem_map_of_mem hother) _ List.mem_cons_self)
  rw [rankSeed_eq, hfilter]
  unfold bestSeeds
  rw [take_sortBy_concat, hconcat, List.map_append]
  · rfl
  · intro left hleft right hright h
    have hmap : (rankedProfiles task profiles).map (rankedSeed s.plan task) ++
        [rankedSeed s.plan task profile] =
          (rankedProfiles task profiles ++ [profile]).map (rankedSeed s.plan task) := by
      rw [List.map_append]
      rfl
    rw [hmap] at hleft hright
    exact eq_of_seedOrder hnodup hleft hright h

theorem rankSeed_first (s : SemanticRuntimeMetadata) (profile : SeedProfile) (task : SemanticTask) :
    s.rankSeed profile task [] = bestSeeds s.plan task [profile] := rfl

/-! ## Profiles that arrive one by one -/

/-- One round of the loop over the tasks. -/
def rankStep (s : SemanticRuntimeMetadata) (profile : SeedProfile) (affected : SemanticTask → Bool)
    (tops : Std.ExtTreeMap Text (List RankedSeed) compare) (task : SemanticTask) :
    Std.ExtTreeMap Text (List RankedSeed) compare :=
  if affected task then
    tops.insert task.taskId (s.rankSeed profile task ((tops[task.taskId]?).getD []))
  else tops

theorem rankSeedInTasks_tops (s : SemanticRuntimeMetadata) (profile : SeedProfile)
    (affected : SemanticTask → Bool) : (s.rankSeedInTasks profile affected).1.topSeedsByTask =
      s.plan.tasks.foldl (s.rankStep profile affected) s.topSeedsByTask := by
  unfold rankSeedInTasks
  refine (List.foldl_hom Prod.fst ?_).symm
  rintro ⟨tops, topChanged⟩ task
  unfold rankStep
  cases affected task with
  | true => rfl
  | false => rfl

/-- What the loop leaves for each task. -/
theorem foldl_rankStep (s : SemanticRuntimeMetadata) (profile : SeedProfile)
    (affected : SemanticTask → Bool) {tasks : List SemanticTask}
    (hids : (tasks.map SemanticTask.taskId).Nodup)
    (tops : Std.ExtTreeMap Text (List RankedSeed) compare) (id : Text) :
    (tasks.foldl (s.rankStep profile affected) tops)[id]? =
      match tasks.find? fun task => task.taskId = id with
      | some task =>
        if affected task then some (s.rankSeed profile task ((tops[id]?).getD [])) else tops[id]?
      | none => tops[id]? := by
  induction tasks generalizing tops with
  | nil => rfl
  | cons task tasks ih =>
    rw [List.map_cons, List.nodup_cons] at hids
    rw [List.foldl_cons, ih hids.2]
    have hstep : (s.rankStep profile affected tops task)[id]? =
        if affected task ∧ task.taskId = id then
          some (s.rankSeed profile task ((tops[task.taskId]?).getD []))
        else tops[id]? := by
      unfold rankStep
      split
      · rename_i haffected
        rw [getElem?_insert_eq]
        simp only [haffected, true_and]
      · rename_i haffected
        rw [if_neg fun h => haffected h.1]
    by_cases hid : task.taskId = id
    · have hnone : tasks.find? (fun task => task.taskId = id) = none := by
        refine List.find?_eq_none.2 fun other hother heq => hids.1 ?_
        rw [hid, ← of_decide_eq_true heq]
        exact List.mem_map_of_mem hother
      rw [List.find?_cons_of_pos (by simp [hid]), hnone]
      simp only
      rw [hstep, hid]
      simp only [and_true]
    · rw [List.find?_cons_of_neg (by simp [hid])]
      have hsame : (s.rankStep profile affected tops task)[id]? = tops[id]? := by
        rw [hstep, if_neg fun h => hid h.2]
      rw [hsame]

/-- The metadata after the profiles have arrived. -/
def cacheAll (s : SemanticRuntimeMetadata) (profiles : List SeedProfile) : SemanticRuntimeMetadata :=
  profiles.foldl (fun s profile => (s.cacheSeedProfile profile).1) s

/-- What the metadata holds once the profiles have arrived: the tasks as at the start, a new corpus
epoch for each profile, the profiles, and the best seeds of every task. -/
structure Cached (start s : SemanticRuntimeMetadata) (profiles : List SeedProfile) : Prop where
  core : s.toSchedulerCore = { start.toSchedulerCore with
    corpusEpoch := (fun epoch => saturatingAdd epoch 1)^[profiles.length] start.corpusEpoch }
  stored : ∀ id, s.seedProfiles[id]? = profiles.find? fun profile => profile.seedId = id
  tops : ∀ id : Text, s.topSeedsByTask[id]? =
    match start.plan.tasks.find? fun task => task.taskId = id with
    | some task => if profiles = [] then none else some (bestSeeds start.plan task profiles)
    | none => none
  dirty : s.rankingDirty = true
  kept : s.ranking = start.ranking ∧ s.attemptHistory = start.attemptHistory ∧
    s.targetNames = start.targetNames ∧ s.coveredMask = start.coveredMask

/-- A new profile is stored and ranked. -/
theorem cacheSeedProfile_new (s : SemanticRuntimeMetadata) (profile : SeedProfile)
    (hnew : s.seedProfiles[profile.seedId]? = none) (hdirty : s.rankingDirty = true) :
    let s' := (s.cacheSeedProfile profile).1
    s'.toSchedulerCore = { s.toSchedulerCore with corpusEpoch := saturatingAdd s.corpusEpoch 1 } ∧
    s'.seedProfiles = s.seedProfiles.insert profile.seedId profile ∧
    s'.topSeedsByTask = s.plan.tasks.foldl (s.rankStep profile fun task =>
      s.seedProfiles.isEmpty || taskAffectedBySeed task profile) s.topSeedsByTask ∧
    s'.rankingDirty = true ∧ s'.ranking = s.ranking ∧ s'.attemptHistory = s.attemptHistory ∧
    s'.targetNames = s.targetNames ∧ s'.coveredMask = s.coveredMask := by
  have hcontains : s.seedProfiles.contains profile.seedId = false := by
    rw [Std.ExtTreeMap.contains_eq_isSome_getElem?, hnew]
    rfl
  have hstore : (s.storeProfile profile).toSchedulerCore =
      { s.toSchedulerCore with corpusEpoch := saturatingAdd s.corpusEpoch 1 } := by
    simp only [storeProfile, hcontains, Bool.false_eq_true, if_false]
  have htops := rankSeedInTasks_tops (s.storeProfile profile) profile fun task =>
    s.seedProfiles.isEmpty || taskAffectedBySeed task profile || (none : Option SeedProfile).any
      (taskAffectedBySeed task)
  simp only [Option.any_none, Bool.or_false] at htops
  simp only [cacheSeedProfile, hnew, Option.any_none, Bool.false_eq_true, if_false, Bool.or_false]
  split
  · exact ⟨hstore, rfl, htops, rfl, rfl, rfl, rfl, rfl⟩
  · split
    · exact ⟨hstore, rfl, htops, rfl, rfl, rfl, rfl, rfl⟩
    · exact ⟨hstore, rfl, htops, hdirty, rfl, rfl, rfl, rfl⟩

theorem cached_cacheAll (mappedTargets : List Text) (hplan : (plan.tasks.map SemanticTask.taskId).Nodup)
    {profiles : List SeedProfile} (hids : (profiles.map SeedProfile.seedId).Nodup) :
    Cached (new plan mappedTargets) (cacheAll (new plan mappedTargets) profiles) profiles := by
  induction profiles using List.reverseRecOn with
  | nil =>
    refine ⟨rfl, fun id => ?_, fun id => ?_, rfl, rfl, rfl, rfl, rfl⟩
    · simp [cacheAll, new]
    · simp only [cacheAll, List.foldl_nil, new, if_true]
      split <;> simp
  | append_singleton profiles profile ih =>
    have hids' := hids
    rw [List.map_append, List.nodup_append] at hids'
    have ih := ih hids'.1
    have hconcat : cacheAll (new plan mappedTargets) (profiles ++ [profile]) =
        ((cacheAll (new plan mappedTargets) profiles).cacheSeedProfile profile).1 := by
      rw [cacheAll, List.foldl_append]
      rfl
    rw [hconcat]
    set s := cacheAll (new plan mappedTargets) profiles with hs
    have hplans : s.plan = plan := by rw [ih.core]; rfl
    have hnone : profiles.find? (fun other => other.seedId = profile.seedId) = none := by
      refine List.find?_eq_none.2 fun other hother heq => ?_
      exact hids'.2.2 _ (List.mem_map_of_mem hother) _ List.mem_cons_self (of_decide_eq_true heq)
    have hnew : s.seedProfiles[profile.seedId]? = none := (ih.stored _).trans hnone
    have hempty : s.seedProfiles.isEmpty = decide (profiles = []) := by
      cases profiles with
      | nil => rfl
      | cons first rest =>
        have hfirst : s.seedProfiles[first.seedId]? = some first := by
          rw [ih.stored, List.find?_cons_of_pos (by simp)]
        rw [decide_eq_false (List.cons_ne_nil _ _), Std.ExtTreeMap.isEmpty_eq_false_iff]
        rintro hempty
        simp [hempty] at hfirst
    obtain ⟨hcore, hprofiles, htops, hdirty, hranking, hhistory, hnames, hmask⟩ :=
      s.cacheSeedProfile_new profile hnew ih.dirty
    obtain ⟨ihranking, ihhistory, ihnames, ihmask⟩ := ih.kept
    refine ⟨?_, fun id => ?_, fun id => ?_, hdirty, hranking.trans ihranking,
      hhistory.trans ihhistory, hnames.trans ihnames, hmask.trans ihmask⟩
    · rw [hcore, ih.core, List.length_append, List.length_singleton, Function.iterate_succ_apply']
    · rw [hprofiles, getElem?_insert_eq, ih.stored, List.find?_append]
      by_cases hid : profile.seedId = id
      · rw [if_pos hid, ← hid, hnone, Option.none_or, List.find?_cons_of_pos (by simp)]
      · rw [if_neg hid, List.find?_cons_of_neg (by simp [hid]), List.find?_nil, Option.or_none]
    · rw [htops, foldl_rankStep _ _ _ (by rw [hplans]; exact hplan), ih.tops, hplans, hempty]
      simp only [new]
      cases htask : plan.tasks.find? (fun task => task.taskId = id) with
      | none => rfl
      | some task =>
        simp only [Bool.or_eq_true, decide_eq_true_eq, List.append_eq_nil_iff, List.cons_ne_nil,
          and_false, if_false]
        by_cases hprofiles : profiles = []
        · subst hprofiles
          rw [if_pos (.inl rfl), if_pos rfl, Option.getD_none, rankSeed_first, hplans]
          rfl
        · have hrank : taskAffectedBySeed task profile = true →
              s.rankSeed profile task (bestSeeds s.plan task profiles) =
                bestSeeds s.plan task (profiles ++ [profile]) := rankSeed_bestSeeds s hprofiles hids
          rw [hplans] at hrank
          rw [if_neg hprofiles, Option.getD_some]
          simp only [hprofiles, false_or]
          split
          · rename_i haffected
            rw [hrank haffected]
          · rename_i haffected
            rw [bestSeeds, bestSeeds, rankedProfiles_concat hprofiles, if_neg haffected,
              List.append_nil]

/-! ## Diagnostics -/

/-- The metadata with other diagnostics. -/
def withDiagnostics (s : SemanticRuntimeMetadata) (statistics : RankingStatistics)
    (reason : Option Text) : SemanticRuntimeMetadata :=
  { s with rankingStatistics := statistics, lastRerankReason := reason }

/-- The same metadata up to diagnostics. -/
def Alike (s s' : SemanticRuntimeMetadata) : Prop :=
  ∃ statistics reason, s' = s.withDiagnostics statistics reason

theorem Alike.refreshStates (h : Alike s s') : Alike s.refreshStates s'.refreshStates := by
  obtain ⟨statistics, reason, rfl⟩ := h
  have hrefresh : ∀ acc : Std.ExtTreeMap Text TaskRuntimeState compare × Bool, Alike
      (if acc.2 then { s with taskStates := acc.1 }.markRankingDirty "task_reactivated".toList
        else { s with taskStates := acc.1 })
      (if acc.2 then { s.withDiagnostics statistics reason with
          taskStates := acc.1 }.markRankingDirty "task_reactivated".toList
        else { s.withDiagnostics statistics reason with taskStates := acc.1 }) := by
    intro acc
    split
    · exact ⟨_, _, rfl⟩
    · exact ⟨_, _, rfl⟩
  exact hrefresh (s.plan.tasks.foldl s.refreshStep (s.taskStates, false))

theorem Alike.tickSelection (h : Alike s s') : Alike s.tickSelection s'.tickSelection := by
  obtain ⟨statistics, reason, rfl⟩ := h
  have hepoch : Alike { s with selectionEpoch := saturatingAdd s.selectionEpoch 1 }
      { s.withDiagnostics statistics reason with
        selectionEpoch := saturatingAdd s.selectionEpoch 1 } := ⟨statistics, reason, rfl⟩
  by_cases hround : saturatingAdd s.selectionEpoch 1 % 32 = 0
  · have hleft : s.tickSelection = SemanticRuntimeMetadata.refreshStates
        { s with selectionEpoch := saturatingAdd s.selectionEpoch 1 } := if_pos hround
    have hright : (s.withDiagnostics statistics reason).tickSelection =
        SemanticRuntimeMetadata.refreshStates { s.withDiagnostics statistics reason with
          selectionEpoch := saturatingAdd s.selectionEpoch 1 } := if_pos hround
    rw [hleft, hright]
    exact hepoch.refreshStates
  · have hleft : s.tickSelection = { s with selectionEpoch := saturatingAdd s.selectionEpoch 1 } :=
      if_neg hround
    have hright : (s.withDiagnostics statistics reason).tickSelection =
        { s.withDiagnostics statistics reason with
          selectionEpoch := saturatingAdd s.selectionEpoch 1 } := if_neg hround
    rw [hleft, hright]
    exact hepoch

/-- The loop over the tasks reads no diagnostics. -/
theorem Alike.rankTasks (h : Alike s s') (ranked : List (Float × Text)) (tasks : List SemanticTask) :
    Alike (s.rankTasks ranked tasks).1 (s'.rankTasks ranked tasks).1 ∧
      (s.rankTasks ranked tasks).2 = (s'.rankTasks ranked tasks).2 := by
  induction tasks generalizing s s' ranked with
  | nil => exact ⟨h, rfl⟩
  | cons task tasks ih =>
    obtain ⟨statistics, reason, rfl⟩ := h
    have hstates : (s.withDiagnostics statistics reason).taskStates[task.taskId]? =
      s.taskStates[task.taskId]? := rfl
    have hwith : (s.withDiagnostics statistics reason).rankedWith task = s.rankedWith task := rfl
    rw [SemanticRuntimeMetadata.rankTasks, SemanticRuntimeMetadata.rankTasks, hstates, hwith]
    cases s.taskStates[task.taskId]? with
    | none => exact ⟨⟨_, _, rfl⟩, rfl⟩
    | some runtime =>
      by_cases hstatus : runtime.status ≠ .ready ∧ runtime.status ≠ .active
      · simp only [if_pos hstatus]
        exact ih ⟨_, _, rfl⟩ ranked
      · simp only [if_neg hstatus]
        rcases s.rankedWith task with ⟨minimumEffort, seed⟩
        simp only
        cases (seedPath task seed).1[(seedPath task seed).2]? with
        | none => exact ih ⟨_, _, rfl⟩ ranked
        | some guideTargetId =>
          apply ih
          exact ⟨statistics, reason, rfl⟩

theorem Alike.activateTask (h : Alike s s') (taskId : Text) (seedRank : ℕ) :
    Alike (s.activateTask taskId seedRank).1 (s'.activateTask taskId seedRank).1 ∧
      (s.activateTask taskId seedRank).2 = (s'.activateTask taskId seedRank).2 := by
  obtain ⟨statistics, reason, rfl⟩ := h
  have hstates : (s.withDiagnostics statistics reason).taskStates[taskId]? =
    s.taskStates[taskId]? := rfl
  have hplan : (s.withDiagnostics statistics reason).plan = s.plan := rfl
  have hseed : ∀ task, (s.withDiagnostics statistics reason).selectSeedForTask task seedRank false =
    s.selectSeedForTask task seedRank false := fun _ => rfl
  have hprofiles : (s.withDiagnostics statistics reason).seedProfiles = s.seedProfiles := rfl
  unfold SemanticRuntimeMetadata.activateTask activateTaskWithSeedMode
  rw [hstates, hplan]
  cases s.taskStates[taskId]? with
  | none => exact ⟨⟨_, _, rfl⟩, rfl⟩
  | some runtime =>
    cases s.plan.tasks.find? fun task => task.taskId = taskId with
    | none => exact ⟨⟨_, _, rfl⟩, rfl⟩
    | some task =>
      simp only [hseed, hprofiles]
      split
      · exact ⟨⟨_, _, rfl⟩, rfl⟩
      · split
        · exact ⟨⟨_, _, rfl⟩, rfl⟩
        · exact ⟨⟨_, _, rfl⟩, rfl⟩

/-- What `rebuild_selection` does once the tasks are ranked. -/
def selectRanked (s : SemanticRuntimeMetadata) :
    Option (List (Float × Text)) → SemanticRuntimeMetadata × Option ActiveSelection
  | none => (s, none)
  | some ranked =>
    let ranked := sortBy (fun left right =>
      (totalCmp right.1 left.1).then (compare left.2 right.2)) ranked
    let s := s.installRanking (ranked.map Prod.snd)
    match ranked with
    | [] => (s, none)
    | (_, taskId) :: _ => s.activateTask taskId 0

/-- The rebuild is counted. -/
def countRebuild (s : SemanticRuntimeMetadata) : SemanticRuntimeMetadata :=
  { s with rankingStatistics := { s.rankingStatistics with
    rankingCount := saturatingAdd s.rankingStatistics.rankingCount 1
    fullRebuildCount := saturatingAdd s.rankingStatistics.fullRebuildCount 1 } }

theorem rebuildSelection_eq (s : SemanticRuntimeMetadata) : s.rebuildSelection =
    (s.countRebuild.refreshStates.rankTasks [] s.countRebuild.refreshStates.plan.tasks).1.selectRanked
      (s.countRebuild.refreshStates.rankTasks [] s.countRebuild.refreshStates.plan.tasks).2 := by
  unfold rebuildSelection countRebuild
  dsimp only
  generalize SemanticRuntimeMetadata.rankTasks _ [] _ = ranked
  rcases ranked with ⟨t, _ | ranked⟩
  · rfl
  · rfl

theorem Alike.selectRanked (h : Alike s s') (ranked : Option (List (Float × Text))) :
    Alike (s.selectRanked ranked).1 (s'.selectRanked ranked).1 ∧
      (s.selectRanked ranked).2 = (s'.selectRanked ranked).2 := by
  obtain ⟨statistics, reason, rfl⟩ := h
  cases ranked with
  | none => exact ⟨⟨_, _, rfl⟩, rfl⟩
  | some ranked =>
    unfold SemanticRuntimeMetadata.selectRanked
    dsimp only
    generalize sortBy _ ranked = sorted
    rcases sorted with _ | ⟨⟨_, taskId⟩, rest⟩
    · exact ⟨⟨_, _, rfl⟩, rfl⟩
    · apply Alike.activateTask
      exact ⟨statistics, reason, rfl⟩

/-- **Rebuilding reads no diagnostics**: it selects the same and leaves the same metadata. -/
theorem Alike.rebuildSelection (h : Alike s s') :
    Alike s.rebuildSelection.1 s'.rebuildSelection.1 ∧
      s.rebuildSelection.2 = s'.rebuildSelection.2 := by
  have hcounted : Alike s.countRebuild s'.countRebuild := by
    obtain ⟨statistics, reason, rfl⟩ := h
    exact ⟨_, _, rfl⟩
  have hrefreshed := hcounted.refreshStates
  have hplan : s'.countRebuild.refreshStates.plan = s.countRebuild.refreshStates.plan := by
    obtain ⟨_, _, heq⟩ := hrefreshed
    rw [heq]
    rfl
  have hranked := hrefreshed.rankTasks [] s.countRebuild.refreshStates.plan.tasks
  rw [rebuildSelection_eq, rebuildSelection_eq, hplan, ← hranked.2]
  exact hranked.1.selectRanked _

theorem Alike.selectableTaskIds (h : Alike s s') :
    Alike s.selectableTaskIds.1 s'.selectableTaskIds.1 ∧
      s.selectableTaskIds.2 = s'.selectableTaskIds.2 := by
  have hdirty : s'.rankingDirty = s.rankingDirty := by
    obtain ⟨_, _, rfl⟩ := h
    rfl
  have hids : ∀ t t' : SemanticRuntimeMetadata, Alike t t' → Alike t t' ∧
      (t.ranking.filter fun taskId => (t.taskStates[taskId]?).any fun runtime =>
        decide (runtime.status = .ready ∨ runtime.status = .active)) =
      t'.ranking.filter fun taskId => (t'.taskStates[taskId]?).any fun runtime =>
        decide (runtime.status = .ready ∨ runtime.status = .active) := by
    rintro t t' ⟨_, _, rfl⟩
    exact ⟨⟨_, _, rfl⟩, rfl⟩
  unfold SemanticRuntimeMetadata.selectableTaskIds
  rw [hdirty]
  cases s.rankingDirty with
  | true => exact hids _ _ h.rebuildSelection.1
  | false => exact hids _ _ h

/-! ## The two orders -/

/-- The first profiles of two orders rank the same: they are the same profile, or both affect every
task. -/
def SameStart (plan : SemanticTaskPlan) (profiles profiles' : List SeedProfile) : Prop :=
  ∀ task ∈ plan.tasks, profiles.head? = profiles'.head? ∨ ∀ first,
    profiles.head? = some first ∨ profiles'.head? = some first →
      taskAffectedBySeed task first = true

/-- Profiles with distinct seeds are found in any order. -/
theorem find?_perm {profiles profiles' : List SeedProfile}
    (hids : (profiles.map SeedProfile.seedId).Nodup) (hperm : profiles.Perm profiles') (id : ℕ) :
    profiles.find? (fun profile => profile.seedId = id) =
      profiles'.find? fun profile => profile.seedId = id := by
  apply Option.ext
  intro profile
  have hfind : ∀ {list : List SeedProfile}, (list.map SeedProfile.seedId).Nodup →
      (list.find? (fun profile => profile.seedId = id) = some profile ↔
        profile ∈ list ∧ profile.seedId = id) := by
    intro list hlist
    constructor
    · intro h
      exact ⟨List.mem_of_find?_eq_some h, by simpa using List.find?_some h⟩
    · rintro ⟨hmem, hid⟩
      cases hfound : list.find? fun profile => profile.seedId = id with
      | none => exact absurd (decide_eq_true hid) (List.find?_eq_none.1 hfound profile hmem)
      | some other =>
        have hother := List.mem_of_find?_eq_some hfound
        have hsame : other.seedId = id := by simpa using List.find?_some hfound
        rw [List.inj_on_of_nodup_map hlist hother hmem (hsame.trans hid.symm)]
  rw [hfind hids, hfind ((hperm.map _).nodup hids), hperm.mem_iff]

/-- The metadata after the profiles have arrived in either order differ in diagnostics only. -/
theorem alike_cacheAll (mappedTargets : List Text) (hplan : (plan.tasks.map SemanticTask.taskId).Nodup)
    {profiles profiles' : List SeedProfile} (hids : (profiles.map SeedProfile.seedId).Nodup)
    (hperm : profiles.Perm profiles') (hstart : SameStart plan profiles profiles') :
    Alike (cacheAll (new plan mappedTargets) profiles)
      (cacheAll (new plan mappedTargets) profiles') := by
  have hcached := cached_cacheAll mappedTargets hplan hids
  have hcached' := cached_cacheAll mappedTargets hplan ((hperm.map _).nodup hids)
  have hempty : profiles = [] ↔ profiles' = [] := by
    rw [← List.length_eq_zero_iff, hperm.length_eq, List.length_eq_zero_iff]
  have hcore := hcached.core
  rw [hperm.length_eq, ← hcached'.core] at hcore
  have hprofiles : (cacheAll (new plan mappedTargets) profiles').seedProfiles =
      (cacheAll (new plan mappedTargets) profiles).seedProfiles := by
    apply Std.ExtTreeMap.ext_getElem?
    intro id
    rw [hcached.stored, hcached'.stored, find?_perm hids hperm]
  have htops : (cacheAll (new plan mappedTargets) profiles').topSeedsByTask =
      (cacheAll (new plan mappedTargets) profiles).topSeedsByTask := by
    apply Std.ExtTreeMap.ext_getElem?
    intro id
    rw [hcached.tops, hcached'.tops]
    cases htask : (new plan mappedTargets).plan.tasks.find? fun task => task.taskId = id with
    | none => rfl
    | some task =>
      have hranked := rankedProfiles_perm hperm (hstart task (List.mem_of_find?_eq_some htask))
      simp only [hempty, bestSeeds_congr hids hranked]
  obtain ⟨hranking, hhistory, hnames, hmask⟩ := hcached.kept
  obtain ⟨hranking', hhistory', hnames', hmask'⟩ := hcached'.kept
  rw [← hranking'] at hranking
  rw [← hhistory'] at hhistory
  rw [← hnames'] at hnames
  rw [← hmask'] at hmask
  have hdirty := hcached.dirty.trans hcached'.dirty.symm
  generalize cacheAll (new plan mappedTargets) profiles = s at *
  generalize cacheAll (new plan mappedTargets) profiles' = s' at *
  refine ⟨s'.rankingStatistics, s'.lastRerankReason, ?_⟩
  cases s
  cases s'
  simp only [withDiagnostics, SemanticRuntimeMetadata.mk.injEq]
  exact ⟨hcore.symm, hhistory.symm, hranking.symm, hprofiles, htops, hdirty.symm, trivial,
    trivial, hnames.symm, hmask.symm⟩

/-- Refreshing the states and rebuilding the ranking, any number of times. -/
inductive Refresh where
  | refreshStates | tickSelection | rebuildSelection | selectableTaskIds

/-- The metadata after a refresh. -/
def refresh (s : SemanticRuntimeMetadata) : Refresh → SemanticRuntimeMetadata
  | .refreshStates => s.refreshStates
  | .tickSelection => s.tickSelection
  | .rebuildSelection => s.rebuildSelection.1
  | .selectableTaskIds => s.selectableTaskIds.1

theorem Alike.refresh (h : Alike s s') (action : Refresh) : Alike (s.refresh action) (s'.refresh action) := by
  cases action with
  | refreshStates => exact h.refreshStates
  | tickSelection => exact h.tickSelection
  | rebuildSelection => exact h.rebuildSelection.1
  | selectableTaskIds => exact h.selectableTaskIds.1

theorem Alike.refreshes (h : Alike s s') (actions : List Refresh) :
    Alike (actions.foldl SemanticRuntimeMetadata.refresh s)
      (actions.foldl SemanticRuntimeMetadata.refresh s') := by
  induction actions generalizing s s' with
  | nil => exact h
  | cons action actions ih => exact ih (h.refresh action)

/-- The rankings are equal: the order of the tasks, and for each of them its best seed, best path
and everything else it is ranked by. -/
def SameRankings (s s' : SemanticRuntimeMetadata) : Prop :=
  s.ranking = s'.ranking ∧ (∀ id : Text, s.taskStates[id]? = s'.taskStates[id]?) ∧
  (∀ id : Text, s.topSeedsByTask[id]? = s'.topSeedsByTask[id]?) ∧
  s.activeSelection = s'.activeSelection ∧ s.rebuildSelection.2 = s'.rebuildSelection.2

/-- Two orders in which the profiles can arrive, followed by the same refreshes, rank the same. -/
def OrderIndependent (plan : SemanticTaskPlan) (mappedTargets : List Text)
    (profiles profiles' : List SeedProfile) : Prop :=
  ∀ actions : List Refresh, SameRankings
    (actions.foldl SemanticRuntimeMetadata.refresh (cacheAll (new plan mappedTargets) profiles))
    (actions.foldl SemanticRuntimeMetadata.refresh (cacheAll (new plan mappedTargets) profiles'))

/-- **The ranking does not depend on the order in which the seeds arrive**, when the first profiles
rank the same. -/
theorem orderIndependent {profiles profiles' : List SeedProfile}
    (hplan : (plan.tasks.map SemanticTask.taskId).Nodup)
    (hids : (profiles.map SeedProfile.seedId).Nodup) (hperm : profiles.Perm profiles')
    (hstart : SameStart plan profiles profiles') :
    OrderIndependent plan mappedTargets profiles profiles' := by
  intro actions
  have halike := (alike_cacheAll mappedTargets hplan hids hperm hstart).refreshes
    actions
  refine ⟨?_, fun id => ?_, fun id => ?_, ?_, halike.rebuildSelection.2⟩
  · obtain ⟨_, _, heq⟩ := halike
    rw [heq]
    rfl
  · obtain ⟨_, _, heq⟩ := halike
    rw [heq]
    rfl
  · obtain ⟨_, _, heq⟩ := halike
    rw [heq]
    rfl
  · obtain ⟨_, _, heq⟩ := halike
    rw [heq]
    rfl

/-- A seed that covers the only target. -/
def coveringSeed (id : ℕ) : SeedProfile := { seedId := id, coveredTargetIds := ["t".toList] }

theorem orderIndependent_coveringSeeds : OrderIndependent oneTask ["t".toList]
    [coveringSeed 0, coveringSeed 1] [coveringSeed 1, coveringSeed 0] := by
  apply orderIndependent
  · decide +kernel
  · decide +kernel
  · exact List.Perm.swap _ _ _
  · intro task htask
    refine .inr ?_
    have htask : task = oneTask.tasks.head (by decide) := List.mem_singleton.1 htask
    subst htask
    rintro first (h | h)
    · obtain rfl := Option.some.inj h
      decide +kernel
    · obtain rfl := Option.some.inj h
      decide +kernel

/-- Only the first of two seeds that cover nothing is ranked. -/
theorem not_orderIndependent : ¬ OrderIndependent oneTask ["t".toList]
    [{ seedId := 0 }, { seedId := 1 }] [{ seedId := 1 }, { seedId := 0 }] := by
  intro h
  have hbest := congrArg (Option.map ActiveSelection.bestSeedId) (h []).2.2.2.2
  have hfirst : ((cacheAll (new oneTask ["t".toList]) [{ seedId := 0 }, { seedId := 1 }])
      |>.rebuildSelection).2.map ActiveSelection.bestSeedId = some (some 0) := by decide +kernel
  have hsecond : ((cacheAll (new oneTask ["t".toList]) [{ seedId := 1 }, { seedId := 0 }])
      |>.rebuildSelection).2.map ActiveSelection.bestSeedId = some (some 1) := by decide +kernel
  exact absurd (hfirst.symm.trans (hbest.trans hsecond)) (by decide)

end SemanticRuntimeMetadata

end SemantiST.Semantic
