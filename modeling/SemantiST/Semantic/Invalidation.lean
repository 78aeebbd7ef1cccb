import SemantiST.Semantic.CreditRuns

/-!
# Seeds that are gone

A seed is remembered among the best seeds of the tasks, in the record of every task and in the
selection.  When it is invalidated the records of the tasks stay as they are, so a task without a
ranked seed can bring it back.
-/

namespace SemantiST.Semantic

open Lib

namespace SemanticRuntimeMetadata

variable {s s' s'' : SemanticRuntimeMetadata} {id : ℕ}

/-! ## Ranked seeds -/

/-- The profiles are stored under their own seeds, and every ranked seed has one. -/
structure SeedInv (s : SemanticRuntimeMetadata) : Prop where
  own : ∀ (id : ℕ) (profile : SeedProfile), s.seedProfiles[id]? = some profile → profile.seedId = id
  ranked : ∀ (taskId : Text) (top : List RankedSeed), s.topSeedsByTask[taskId]? = some top →
    ∀ entry ∈ top, entry.seedId ∈ s.seedProfiles

/-- The profiles and the ranked seeds are the same. -/
structure SameProfiles (s s' : SemanticRuntimeMetadata) : Prop where
  profiles : s'.seedProfiles = s.seedProfiles
  tops : s'.topSeedsByTask = s.topSeedsByTask

theorem SameProfiles.trans (h : SameProfiles s s') (h' : SameProfiles s' s'') : SameProfiles s s'' :=
  ⟨h'.profiles.trans h.profiles, h'.tops.trans h.tops⟩

theorem SeedInv.of_same (h : SeedInv s) (hs : SameProfiles s s') : SeedInv s' := by
  constructor
  · rw [hs.profiles]
    exact h.own
  · rw [hs.profiles, hs.tops]
    exact h.ranked

theorem mem_rankSeed {profile : SeedProfile} {task : SemanticTask} {top : List RankedSeed}
    {entry : RankedSeed} (h : entry ∈ s.rankSeed profile task top) :
    entry ∈ top ∨ entry.seedId = profile.seedId := by
  have h := List.mem_of_mem_take h
  rw [sortBy, List.mem_insertionSort, List.mem_append] at h
  rcases h with h | h
  · exact .inl (List.mem_of_mem_filter h)
  · rw [List.mem_singleton.1 h]
    exact .inr rfl

theorem SeedInv.cacheSeedProfile (h : SeedInv s) (profile : SeedProfile) :
    SeedInv (s.cacheSeedProfile profile).1 := by
  have hstored : ∀ affected : SemanticTask → Bool,
      SeedInv ((s.storeProfile profile).rankSeedInTasks profile affected).1 := by
    intro affected
    constructor
    · intro id stored hid
      have hid : (s.seedProfiles.insert profile.seedId profile)[id]? = some stored := hid
      rw [getElem?_insert_eq] at hid
      split at hid
      · rename_i heq
        rw [← Option.some.inj hid, heq]
      · exact h.own id stored hid
    · -- the ranked seeds are those ranked before and the new one
      unfold rankSeedInTasks
      refine List.foldlRecOn (motive := fun acc : Std.ExtTreeMap Text (List RankedSeed) compare × Bool =>
        ∀ (taskId : Text) (top : List RankedSeed), acc.1[taskId]? = some top →
          ∀ entry ∈ top, entry.seedId ∈ s.seedProfiles.insert profile.seedId profile) _ _ ?_ ?_
      · intro taskId top htop entry hentry
        exact Std.ExtTreeMap.mem_insert.2 (.inr (h.ranked taskId top htop entry hentry))
      · rintro ⟨tops, topChanged⟩ hacc task -
        simp only
        split
        · exact hacc
        · intro taskId top htop entry hentry
          rw [getElem?_insert_eq] at htop
          split at htop
          · obtain rfl := Option.some.inj htop
            rcases mem_rankSeed hentry with hbefore | hnew
            · cases hold : tops[task.taskId]? with
              | none =>
                rw [hold, Option.getD_none] at hbefore
                cases hbefore
              | some before =>
                rw [hold, Option.getD_some] at hbefore
                exact hacc task.taskId before hold entry hbefore
            · rw [hnew]
              exact Std.ExtTreeMap.mem_insert_self
          · exact hacc taskId top htop entry hentry
  unfold SemanticRuntimeMetadata.cacheSeedProfile
  simp only
  split
  · exact h
  · split
    · exact (hstored _).of_same ⟨rfl, rfl⟩
    · split
      · exact (hstored _).of_same ⟨rfl, rfl⟩
      · exact hstored _

theorem SeedInv.invalidateSeed (h : SeedInv s) (seedId : ℕ) : SeedInv (s.invalidateSeed seedId) := by
  have herased : SeedInv { s with
      seedProfiles := s.seedProfiles.erase seedId
      topSeedsByTask := s.topSeedsByTask.map fun _ top =>
        top.filter fun entry => entry.seedId ≠ seedId } := by
    constructor
    · intro id profile hid
      simp only [Std.ExtTreeMap.getElem?_erase] at hid
      split at hid
      · cases hid
      · exact h.own id profile hid
    · intro taskId top htop entry hentry
      simp only [Std.ExtTreeMap.getElem?_map, Option.map_eq_some_iff] at htop
      obtain ⟨before, hbefore, rfl⟩ := htop
      obtain ⟨hmem, hne⟩ := List.mem_filter.1 hentry
      have hne : entry.seedId ≠ seedId := of_decide_eq_true hne
      rw [Std.ExtTreeMap.mem_erase]
      exact ⟨fun heq => hne (Std.LawfulEqCmp.eq_of_compare heq).symm,
        h.ranked taskId before hbefore entry hmem⟩
  unfold SemanticRuntimeMetadata.invalidateSeed
  split
  · exact h
  · simp only
    split
    · exact herased.of_same ⟨rfl, rfl⟩
    · exact herased

theorem SeedInv.selectSeedForTask (h : SeedInv s) {task : SemanticTask} {seedRank : ℕ}
    {broadenSeed : Bool} (hsome : s.selectSeedForTask task seedRank broadenSeed = some id) :
    id ∈ s.seedProfiles := by
  have hranked : ∀ id, (do
      let seeds ← s.topSeedsByTask[task.taskId]?
      let seed ← seeds[min seedRank (seeds.length - 1)]?
      return seed.seedId) = some id → id ∈ s.seedProfiles := by
    intro id hid
    obtain ⟨seeds, hseeds, hid⟩ := Option.bind_eq_some_iff.1 hid
    obtain ⟨seed, hseed, hid⟩ := Option.bind_eq_some_iff.1 hid
    obtain rfl := Option.some.inj hid
    exact h.ranked _ seeds hseeds seed (List.mem_of_getElem? hseed)
  unfold SemanticRuntimeMetadata.selectSeedForTask at hsome
  simp only at hsome
  split at hsome
  · cases hkey : s.seedProfiles.keys[seedRank]? with
    | none =>
      rw [hkey] at hsome
      exact hranked id hsome
    | some key =>
      rw [hkey, Option.some_or, Option.some.injEq] at hsome
      rw [← hsome, ← Std.ExtTreeMap.mem_keys]
      exact List.mem_of_getElem? hkey
  · exact hranked id hsome

/-! ## Recorded seeds -/

/-- The best seed recorded for the task has a profile. -/
def LiveTask (s : SemanticRuntimeMetadata) (taskId : Text) : Prop :=
  ∀ (r : TaskRuntimeState) (id : ℕ), s.taskStates[taskId]? = some r → r.bestSeedId = some id →
    id ∈ s.seedProfiles

/-- The recorded best seeds were recorded before, or they have a profile. -/
def RecordedFrom (s s' : SemanticRuntimeMetadata) : Prop :=
  ∀ (taskId : Text) (r' : TaskRuntimeState) (id : ℕ), s'.taskStates[taskId]? = some r' →
    r'.bestSeedId = some id →
    id ∈ s'.seedProfiles ∨ ∃ r, s.taskStates[taskId]? = some r ∧ r.bestSeedId = some id

theorem RecordedFrom.of_sameField
    (h : SameField TaskRuntimeState.bestSeedId s.toSchedulerCore s'.toSchedulerCore) :
    RecordedFrom s s' := by
  intro taskId r' id hr' hid
  have h := h taskId
  rw [hr', Option.map_some, hid] at h
  obtain ⟨r, hr, hbest⟩ := Option.map_eq_some_iff.1 h.symm
  exact .inr ⟨r, hr, hbest⟩

theorem RecordedFrom.refl (s : SemanticRuntimeMetadata) : RecordedFrom s s :=
  .of_sameField (.refl _ _)

theorem RecordedFrom.trans (h : RecordedFrom s s') (h' : RecordedFrom s' s'')
    (hprofiles : s''.seedProfiles = s'.seedProfiles) : RecordedFrom s s'' := by
  intro taskId r'' id hr'' hid
  rcases h' taskId r'' id hr'' hid with hlive | ⟨r', hr', hid'⟩
  · exact .inl hlive
  · rw [hprofiles]
    exact h taskId r' id hr' hid'

/-! ### Executions -/

theorem recordSuccess_bestSeedId {taskId : Text} {r : TaskRuntimeState} (identity : Text)
    (hr : s.taskStates[taskId]? = some r) : SameField TaskRuntimeState.bestSeedId s.toSchedulerCore
      (s.recordSuccess taskId identity r).toSchedulerCore := by
  have hset : SameField TaskRuntimeState.bestSeedId s.toSchedulerCore (s.setTask taskId { r with
      attempts := saturatingAdd r.attempts 1
      failedAttempts := 0
      guideSuccesses := r.guideSuccesses.insert identity
        (saturatingAdd ((r.guideSuccesses[identity]?).getD 0) 1) }) := .setTask hr rfl
  unfold recordSuccess
  simp only
  split
  · exact hset
  · exact hset

theorem recordAssignedAttempt_bestSeedId (s : SemanticRuntimeMetadata) (taskId identity : Text)
    (covered : Bool) (seedId : Option ℕ) :
    SameField TaskRuntimeState.bestSeedId s.toSchedulerCore
      (s.recordAssignedAttempt taskId identity covered seedId).toSchedulerCore ∧
    SameProfiles s (s.recordAssignedAttempt taskId identity covered seedId) := by
  unfold recordAssignedAttempt
  split
  · exact ⟨.refl _ _, rfl, rfl⟩
  · simp only
    split
    · exact ⟨.refl _ _, rfl, rfl⟩
    · rename_i r hr
      split
      · refine ⟨recordSuccess_bestSeedId identity hr, ?_⟩
        unfold recordSuccess
        simp only
        split <;> exact ⟨rfl, rfl⟩
      · rw [recordFailure_core]
        refine ⟨steady_bestSeedId.recordFailure hr, ?_⟩
        unfold recordFailure
        simp only
        split <;> exact ⟨rfl, rfl⟩

theorem recordAttempt_bestSeedId (s : SemanticRuntimeMetadata) (seedId : Option ℕ) :
    SameField TaskRuntimeState.bestSeedId s.toSchedulerCore (s.recordAttempt true seedId).toSchedulerCore ∧
    SameProfiles s (s.recordAttempt true seedId) := by
  unfold recordAttempt
  split
  · split
    · exact ⟨.refl _ _, rfl, rfl⟩
    · simp only [if_true]
      obtain ⟨hfield, hprofiles⟩ := recordAssignedAttempt_bestSeedId
        { s with activeSelectionSucceeded := true } _ _ true seedId
      exact ⟨hfield, hprofiles.profiles, hprofiles.tops⟩
  · exact ⟨.refl _ _, rfl, rfl⟩

theorem refreshStates_profiles (s : SemanticRuntimeMetadata) : SameProfiles s s.refreshStates := by
  unfold refreshStates
  generalize s.plan.tasks.foldl s.refreshStep (s.taskStates, false) = acc
  rcases acc with ⟨states, reactivated⟩
  cases reactivated with
  | true => exact ⟨rfl, rfl⟩
  | false => exact ⟨rfl, rfl⟩

/-- Neither the recorded seeds nor the profiles change. -/
structure SeedsKept (s s' : SemanticRuntimeMetadata) : Prop where
  recorded : SameField TaskRuntimeState.bestSeedId s.toSchedulerCore s'.toSchedulerCore
  same : SameProfiles s s'

theorem SeedsKept.refl (s : SemanticRuntimeMetadata) : SeedsKept s s := ⟨.refl _ _, rfl, rfl⟩

theorem SeedsKept.trans (h : SeedsKept s s') (h' : SeedsKept s' s'') : SeedsKept s s'' :=
  ⟨h.recorded.trans h'.recorded, h.same.trans h'.same⟩

theorem refreshStates_seedsKept (s : SemanticRuntimeMetadata) : SeedsKept s s.refreshStates :=
  ⟨steady_bestSeedId.refreshStates s, s.refreshStates_profiles⟩

theorem tickSelection_seedsKept (s : SemanticRuntimeMetadata) : SeedsKept s s.tickSelection := by
  have htick : SeedsKept s { s with selectionEpoch := saturatingAdd s.selectionEpoch 1 } :=
    ⟨.refl _ _, rfl, rfl⟩
  unfold tickSelection
  simp only
  split
  · exact htick.trans (refreshStates_seedsKept _)
  · exact htick

theorem coverHits_seedsKept (s : SemanticRuntimeMetadata) (hits : List ℕ) :
    SeedsKept s (s.coverHits hits).1 := by
  have hcover : SeedsKept s (hits.foldl coverIndex (s, false)).1 := by
    refine List.foldlRecOn (motive := fun acc => SeedsKept s acc.1) hits coverIndex ?_ ?_
    · exact .refl s
    rintro ⟨s', advanced⟩ h index -
    unfold coverIndex
    simp only
    split
    · exact h
    · split
      · exact h.trans ⟨.refl _ _, rfl, rfl⟩
      · exact h.trans ⟨.refl _ _, rfl, rfl⟩
  unfold coverHits
  generalize hits.foldl coverIndex (s, false) = acc at hcover ⊢
  rcases acc with ⟨s', advanced⟩
  cases advanced with
  | true =>
    refine hcover.trans (.trans ?_ (refreshStates_seedsKept _))
    exact ⟨.refl _ _, rfl, rfl⟩
  | false => exact hcover

theorem improvePrefix_seedsKept (s : SemanticRuntimeMetadata) (taskId : Text) (matched : ℕ) :
    SeedsKept s (s.improvePrefix taskId matched).1 := by
  unfold improvePrefix
  split
  · rename_i r pathKey hr hkey
    have himprove : SeedsKept s { s with toSchedulerCore := s.setTask taskId { r with
        bestPrefixByPath := r.bestPrefixByPath.insert pathKey matched } } :=
      ⟨.setTask hr rfl, rfl, rfl⟩
    simp only
    split
    · split
      · exact himprove
      · exact .refl s
    · split
      · exact himprove
      · exact .refl s
  · exact .refl s

theorem recordIndexedExecution_seedsKept (s : SemanticRuntimeMetadata) (hits ordered : List ℕ)
    (complete : Bool) : SeedsKept s (s.recordIndexedExecution hits ordered complete).1 := by
  have hcover := s.coverHits_seedsKept hits
  have hordered : ∀ s : SemanticRuntimeMetadata, SeedsKept s (s.recordOrdered ordered).1 := by
    intro s
    unfold recordOrdered
    split
    · rename_i taskId hid
      have himprove := improvePrefix_seedsKept s taskId
        (orderedPrefixLenIndexed s.activePathIndices ordered)
      simp only
      split
      · obtain ⟨hfield, hprofiles⟩ := recordAttempt_bestSeedId (s.improvePrefix taskId
          (orderedPrefixLenIndexed s.activePathIndices ordered)).1 (s.improvePrefix taskId
          (orderedPrefixLenIndexed s.activePathIndices ordered)).1.bestSeedId
        exact himprove.trans ⟨hfield, hprofiles⟩
      · exact himprove
    · exact .refl s
  have h := hcover.trans (hordered _)
  unfold recordIndexedExecution
  simp only
  split
  · exact ⟨h.recorded, h.same.profiles, h.same.tops⟩
  · exact h

/-! ### Selections -/

/-- The seed a task is ranked with has a profile under its own identity. -/
theorem SeedInv.rankedWith (h : SeedInv s) {task : SemanticTask} {profile : SeedProfile}
    (hseed : (s.rankedWith task).2 = some profile) : profile.seedId ∈ s.seedProfiles := by
  unfold SemanticRuntimeMetadata.rankedWith at hseed
  simp only at hseed
  generalize hscores : (((s.topSeedsByTask[task.taskId]?).getD []).filterMap fun ranked =>
    (s.seedProfiles[ranked.seedId]?).map fun seed => (ranked.effort, some seed)) = scores at hseed
  cases scores with
  | nil => cases hseed
  | cons score scores =>
    simp only [List.head?_cons, Option.getD_some] at hseed
    have hmem : score ∈ (((s.topSeedsByTask[task.taskId]?).getD []).filterMap fun ranked =>
        (s.seedProfiles[ranked.seedId]?).map fun seed => (ranked.effort, some seed)) :=
      hscores ▸ List.mem_cons_self
    obtain ⟨ranked, -, hranked⟩ := List.mem_filterMap.1 hmem
    obtain ⟨seed, hprofile, rfl⟩ := Option.map_eq_some_iff.1 hranked
    obtain rfl := Option.some.inj hseed
    rw [h.own _ _ hprofile]
    exact Std.ExtTreeMap.mem_iff_isSome_getElem?.2 (by rw [hprofile]; rfl)

/-- What ranking the tasks records has a profile, above all for the tasks it ranks. -/
theorem rankTasks_seeds (h : SeedInv s) (ranked : List (Float × Text)) (tasks : List SemanticTask)
    (hranked : ∀ entry ∈ ranked, LiveTask s entry.2) :
    RecordedFrom s (s.rankTasks ranked tasks).1 ∧ SameProfiles s (s.rankTasks ranked tasks).1 ∧
    ∀ result, (s.rankTasks ranked tasks).2 = some result →
      ∀ entry ∈ result, LiveTask (s.rankTasks ranked tasks).1 entry.2 := by
  induction tasks generalizing s ranked with
  | nil =>
    refine ⟨.refl s, ⟨rfl, rfl⟩, fun result hresult => ?_⟩
    obtain rfl := Option.some.inj hresult
    exact hranked
  | cons task tasks ih =>
    unfold rankTasks
    split
    · exact ⟨.refl s, ⟨rfl, rfl⟩, fun result hresult => nomatch hresult⟩
    · rename_i r hr
      split
      · exact ih h ranked hranked
      · simp only
        split
        · exact ih h ranked hranked
        · -- the record of the task is new, and its seed has a profile
          rename_i target htarget
          generalize hr' : ({ r with
            priority := taskGain task s.coveredTargetIds.contains / (1 + (s.rankedWith task).1) *
              Float.exp (-failureDecayRho * Float.ofNat r.failedAttempts)
            basePriority := taskGain task s.coveredTargetIds.contains / (1 + (s.rankedWith task).1)
            gain := taskGain task s.coveredTargetIds.contains
            minimumEffort := (s.rankedWith task).1
            bestSeedId := (s.rankedWith task).2.map SeedProfile.seedId
            activePath := (seedPath task (s.rankedWith task).2).1
            guideTargetId := some target
            remainingObligations := (seedPath task (s.rankedWith task).2).1.drop
              (seedPath task (s.rankedWith task).2).2
            prerequisites := task.hazardPrerequisites
            unlockedTargets := task.unlockedTargets } : TaskRuntimeState) = r'
          have hlive : ∀ id, r'.bestSeedId = some id → id ∈ s.seedProfiles := by
            intro id hid
            rw [← hr'] at hid
            obtain ⟨profile, hprofile, rfl⟩ := Option.map_eq_some_iff.1 hid
            exact h.rankedWith hprofile
          set s₁ : SemanticRuntimeMetadata :=
            { s with toSchedulerCore := s.setTask task.taskId r' } with hs₁
          have hsame : SameProfiles s s₁ := ⟨rfl, rfl⟩
          have hstates : ∀ taskId : Text, s₁.taskStates[taskId]? =
              if task.taskId = taskId then some r' else s.taskStates[taskId]? := fun taskId =>
            SchedulerCore.setTask_taskStates _ _ _ _
          have hrecorded : RecordedFrom s s₁ := by
            intro taskId t id ht hid
            rw [hstates] at ht
            split at ht
            · obtain rfl := Option.some.inj ht
              exact .inl (hlive id hid)
            · exact .inr ⟨t, ht, hid⟩
          have hkeeps : ∀ taskId, LiveTask s taskId → LiveTask s₁ taskId := by
            intro taskId hlt t id ht hid
            rw [hstates] at ht
            split at ht
            · obtain rfl := Option.some.inj ht
              exact hlive id hid
            · exact hlt t id ht hid
          have hself : LiveTask s₁ task.taskId := by
            intro t id ht hid
            rw [hstates, if_pos rfl, Option.some.injEq] at ht
            subst ht
            exact hlive id hid
          obtain ⟨hrec, hprofiles, hresult⟩ := ih (s := s₁) (h.of_same hsame)
            (ranked ++ [(taskGain task s.coveredTargetIds.contains / (1 + (s.rankedWith task).1) *
              Float.exp (-failureDecayRho * Float.ofNat r.failedAttempts), task.taskId)]) (by
            intro entry hentry
            rcases List.mem_append.1 hentry with hentry | hentry
            · exact hkeeps _ (hranked entry hentry)
            · rw [List.mem_singleton.1 hentry]
              exact hself)
          exact ⟨hrecorded.trans hrec hprofiles.profiles, hsame.trans hprofiles, hresult⟩

/-- What activating a task returns and records. -/
theorem activateTaskWithSeedMode_seed (h : SeedInv s) (taskId : Text) (seedRank : ℕ)
    (broadenSeed : Bool) :
    s.activateTaskWithSeedMode taskId seedRank broadenSeed = (s, none) ∨
    ∃ task r s' selection,
      s.plan.tasks.find? (fun task => task.taskId = taskId) = some task ∧
      s.taskStates[taskId]? = some r ∧ (r.status = .ready ∨ r.status = .active) ∧
      s.activateTaskWithSeedMode taskId seedRank broadenSeed = (s', some selection) ∧
      selection.bestSeedId = (s.selectSeedForTask task seedRank broadenSeed).or r.bestSeedId ∧
      selection.activePath ≠ [] ∧
      selection.activePath = (seedPath task (selection.bestSeedId.bind (s.seedProfiles[·]?))).1 ∧
      SameProfiles s s' ∧ RecordedFrom s s' := by
  unfold activateTaskWithSeedMode
  split
  · rename_i r task hr htask
    split
    · exact .inl rfl
    · rename_i hstatus
      simp only
      split
      · exact .inl rfl
      · rename_i target htarget
        obtain rfl : task.taskId = taskId := by simpa using List.find?_some htask
        right
        refine ⟨task, r, _, _, htask, hr, by tauto, rfl, rfl, ?_, rfl, ⟨rfl, rfl⟩, ?_⟩
        · intro hnil
          have hnil : (seedPath task (((s.selectSeedForTask task seedRank broadenSeed).or
            r.bestSeedId).bind (s.seedProfiles[·]?))).1 = [] := hnil
          rw [hnil] at htarget
          cases htarget
        · intro taskId' t id ht hid
          simp only [SchedulerCore.activateGuide_taskStates] at ht
          split at ht
          · rename_i heq
            subst heq
            rw [hr, Option.map_some, Option.some.injEq] at ht
            subst ht
            have hid : (s.selectSeedForTask task seedRank broadenSeed).or r.bestSeedId = some id := hid
            cases hselect : s.selectSeedForTask task seedRank broadenSeed with
            | none =>
              rw [hselect, Option.none_or] at hid
              exact .inr ⟨r, hr, hid⟩
            | some id' =>
              rw [hselect, Option.some_or, Option.some.injEq] at hid
              exact .inl (hid ▸ h.selectSeedForTask hselect)
          · have hfield : ∀ o : Option TaskRuntimeState, o = some t → o = s.taskStates[taskId']? ∨
                o = (s.taskStates[taskId']?).map TaskRuntimeState.deactivated →
                ∃ r, s.taskStates[taskId']? = some r ∧ r.bestSeedId = some id := by
              rintro o ho (hsame | hdeactivated)
              · exact ⟨t, hsame ▸ ho, hid⟩
              · rw [ho] at hdeactivated
                obtain ⟨r, hr, rfl⟩ := Option.map_eq_some_iff.1 hdeactivated.symm
                exact ⟨r, hr, (steady_bestSeedId.deactivated r).symm.trans hid⟩
            split at ht
            · exact .inr (hfield _ ht (.inr rfl))
            · exact .inr (hfield _ ht (.inl rfl))
  · exact .inl rfl

/-- What a new ranking records and activates has a profile. -/
theorem rebuildSelection_seed (h : SeedInv s) :
    SameProfiles s s.rebuildSelection.1 ∧ RecordedFrom s s.rebuildSelection.1 ∧
    ∀ selection, s.rebuildSelection.2 = some selection → ∀ id, selection.bestSeedId = some id →
      id ∈ s.seedProfiles := by
  set s₁ : SemanticRuntimeMetadata := { s with rankingStatistics := { s.rankingStatistics with
    rankingCount := saturatingAdd s.rankingStatistics.rankingCount 1
    fullRebuildCount := saturatingAdd s.rankingStatistics.fullRebuildCount 1 } }.refreshStates with hs₁
  have hrefresh : SeedsKept s s₁ := by
    refine .trans ?_ (refreshStates_seedsKept _)
    exact ⟨.refl _ _, rfl, rfl⟩
  have h₁ := h.of_same hrefresh.same
  obtain ⟨hrecorded, hsame, hlive⟩ := rankTasks_seeds h₁ [] s₁.plan.tasks (by simp)
  have hrecorded := (RecordedFrom.of_sameField hrefresh.recorded).trans hrecorded hsame.profiles
  have hsame := hrefresh.same.trans hsame
  unfold rebuildSelection
  simp only [← hs₁]
  generalize s₁.rankTasks [] s₁.plan.tasks = result at hrecorded hsame hlive ⊢
  rcases result with ⟨s₂, _ | ranked⟩
  · exact ⟨hsame, hrecorded, by simp⟩
  · simp only at hrecorded hsame hlive ⊢
    have hlive : ∀ entry ∈ sortBy (fun left right : Float × Text =>
        (totalCmp right.1 left.1).then (compare left.2 right.2)) ranked, LiveTask s₂ entry.2 :=
      fun entry hentry => hlive ranked rfl entry (by rwa [sortBy, List.mem_insertionSort] at hentry)
    generalize sortBy (fun left right : Float × Text =>
      (totalCmp right.1 left.1).then (compare left.2 right.2)) ranked = ranking at hlive ⊢
    cases ranking with
    | nil => exact ⟨⟨hsame.profiles, hsame.tops⟩, hrecorded, by simp⟩
    | cons entry ranking =>
      rcases entry with ⟨priority, taskId⟩
      have hlive := hlive _ List.mem_cons_self
      simp only [activateTask, List.map_cons]
      set s₃ := s₂.installRanking (taskId :: ranking.map Prod.snd) with hs₃
      have hsame₃ : SameProfiles s s₃ := ⟨hsame.profiles, hsame.tops⟩
      have hrecorded₃ : RecordedFrom s s₃ := hrecorded
      rcases activateTaskWithSeedMode_seed (h.of_same hsame₃) taskId 0 false with
        hnone | ⟨task, r, s', selection, -, hr, -, hresult, hbest, -, -, hsame', hrecorded'⟩
      · rw [hnone]
        exact ⟨hsame₃, hrecorded₃, by simp⟩
      · rw [hresult]
        refine ⟨hsame₃.trans hsame', hrecorded₃.trans hrecorded' hsame'.profiles, ?_⟩
        intro selection' hselection id hid
        obtain rfl := Option.some.inj hselection
        rw [hbest] at hid
        rw [← hsame₃.profiles]
        cases hselect : s₃.selectSeedForTask task 0 false with
        | none =>
          rw [hselect, Option.none_or] at hid
          exact hlive r id hr hid
        | some id' =>
          rw [hselect, Option.some_or, Option.some.injEq] at hid
          exact hid ▸ (h.of_same hsame₃).selectSeedForTask hselect

/-! ## Steps -/

/-- A task is activated for which no seed is ranked any more, while the best seed recorded for it
has lost its profile. -/
def StaleActivation (s : SemanticRuntimeMetadata) : Op → Prop
  | .activateTaskWithSeedMode taskId seedRank broadenSeed => ∃ task r id,
    s.plan.tasks.find? (fun task => task.taskId = taskId) = some task ∧
    s.taskStates[taskId]? = some r ∧ (r.status = .ready ∨ r.status = .active) ∧
    chooseActivePath task [] ≠ [] ∧ s.selectSeedForTask task seedRank broadenSeed = none ∧
    r.bestSeedId = some id ∧ id ∉ s.seedProfiles
  | _ => False

/-- What is returned without a profile was recorded for a task before. -/
theorem activated_gone (h : SeedInv s) {op : Op} {selection : ActiveSelection}
    (hop : activated s op = some selection) (hbest : selection.bestSeedId = some id)
    (hgone : id ∉ s.seedProfiles) : StaleActivation s op := by
  cases op with
  | activateTaskWithSeedMode taskId seedRank broadenSeed =>
    rw [activated] at hop
    rcases activateTaskWithSeedMode_seed h taskId seedRank broadenSeed with
      hnone | ⟨task, r, s', selection', htask, hr, hstatus, hresult, hseed, hne, hpath, -, -⟩
    · rw [hnone] at hop
      cases hop
    · rw [hresult] at hop
      obtain rfl := Option.some.inj hop
      rw [hbest, Option.bind_some, Std.ExtTreeMap.getElem?_eq_none hgone] at hpath
      rw [hbest] at hseed
      cases hselect : s.selectSeedForTask task seedRank broadenSeed with
      | none =>
        rw [hselect, Option.none_or] at hseed
        exact ⟨task, r, id, htask, hr, hstatus, fun hnil => hne (hpath.trans hnil), hselect,
          hseed.symm, hgone⟩
      | some id' =>
        rw [hselect, Option.some_or, Option.some.injEq] at hseed
        exact absurd (hseed ▸ h.selectSeedForTask hselect) hgone
  | selectableTaskIds =>
    exfalso
    rw [activated] at hop
    split at hop
    · exact hgone ((rebuildSelection_seed h).2.2 selection hop id hbest)
    · cases hop
  | _ => cases hop

/-- Such an activation returns the recorded seed. -/
theorem StaleActivation.activated {op : Op} (h : StaleActivation s op) :
    ∃ (selection : ActiveSelection) (id : ℕ) (taskId : Text) (r : TaskRuntimeState),
      activated s op = some selection ∧ selection.bestSeedId = some id ∧ id ∉ s.seedProfiles ∧
      s.taskStates[taskId]? = some r ∧ r.bestSeedId = some id := by
  cases op with
  | activateTaskWithSeedMode taskId seedRank broadenSeed =>
    obtain ⟨task, r, id, htask, hr, hstatus, hpath, hselect, hbest, hgone⟩ := h
    cases hchoose : chooseActivePath task [] with
    | nil => exact absurd hchoose hpath
    | cons target path =>
      have hstatus : ¬ (r.status ≠ .ready ∧ r.status ≠ .active) := by tauto
      have hnone : s.seedProfiles[id]? = none := Std.ExtTreeMap.getElem?_eq_none hgone
      have hseedPath : seedPath task none = (target :: path, 0) := by rw [seedPath, hchoose]
      refine ⟨selectionOf task (target :: path) 0 target (some id) r.priority, id, taskId, r, ?_, rfl,
        hgone, hr, hbest⟩
      simp only [SemanticRuntimeMetadata.activated, activateTaskWithSeedMode, hr, htask, hstatus,
        if_false, hselect, Option.none_or, hbest, Option.bind_some, hnone, hseedPath]
      rfl
  | _ => exact h.elim

theorem cacheSeedProfile_core_taskStates (s : SemanticRuntimeMetadata) (profile : SeedProfile) :
    (s.cacheSeedProfile profile).1.taskStates = s.taskStates := by
  unfold cacheSeedProfile
  simp only
  split
  · rfl
  · split
    · rfl
    · split <;> rfl

theorem cacheSeedProfile_profiles (s : SemanticRuntimeMetadata) (profile : SeedProfile) :
    profile.seedId ∈ (s.cacheSeedProfile profile).1.seedProfiles ∧
    ∀ id, id ∈ (s.cacheSeedProfile profile).1.seedProfiles ↔
      id = profile.seedId ∨ id ∈ s.seedProfiles := by
  have hall : ∀ id, id ∈ (s.cacheSeedProfile profile).1.seedProfiles ↔
      id = profile.seedId ∨ id ∈ s.seedProfiles := by
    intro id
    have hinsert : id ∈ s.seedProfiles.insert profile.seedId profile ↔
        id = profile.seedId ∨ id ∈ s.seedProfiles := by
      rw [Std.ExtTreeMap.mem_insert, Std.LawfulEqCmp.compare_eq_iff_eq]
      tauto
    unfold cacheSeedProfile
    simp only
    split
    · rename_i hany
      obtain ⟨stored, hstored, -⟩ := (Option.any_eq_true _ _).1 hany
      have hmem : profile.seedId ∈ s.seedProfiles :=
        Std.ExtTreeMap.mem_iff_isSome_getElem?.2 (by rw [hstored]; rfl)
      constructor
      · exact .inr
      · rintro (rfl | h)
        · exact hmem
        · exact h
    · split
      · exact hinsert
      · split
        · exact hinsert
        · exact hinsert
  exact ⟨(hall _).2 (.inl rfl), hall⟩

theorem invalidateSeed_profiles (s : SemanticRuntimeMetadata) (seedId : ℕ) :
    ∀ id, id ∈ (s.invalidateSeed seedId).seedProfiles ↔ id ≠ seedId ∧ id ∈ s.seedProfiles := by
  intro id
  have herase : id ∈ s.seedProfiles.erase seedId ↔ id ≠ seedId ∧ id ∈ s.seedProfiles := by
    rw [Std.ExtTreeMap.mem_erase, ne_eq, Std.LawfulEqCmp.compare_eq_iff_eq]
    tauto
  unfold invalidateSeed
  split
  · rename_i hnot
    constructor
    · intro hmem
      refine ⟨?_, hmem⟩
      rintro rfl
      rw [Std.ExtTreeMap.contains_iff_mem.2 hmem] at hnot
      cases hnot
    · exact And.right
  · simp only
    split
    · exact herase
    · exact herase

theorem invalidateSeed_taskStates (s : SemanticRuntimeMetadata) (seedId : ℕ) :
    (s.invalidateSeed seedId).taskStates = s.taskStates := by
  unfold invalidateSeed
  split
  · rfl
  · simp only
    split <;> rfl

/-- What a step does to the profiles. -/
theorem step_profiles (h : SeedInv s) (op : Op) (id : ℕ) :
    id ∈ (step s op).seedProfiles ↔
      (∃ profile : SeedProfile, profile.seedId = id ∧ op = .cacheSeedProfile profile) ∨
      (op ≠ .invalidateSeed id ∧ id ∈ s.seedProfiles) := by
  have hsame : SameProfiles s (step s op) → (∀ profile, op ≠ .cacheSeedProfile profile) →
      op ≠ .invalidateSeed id → (id ∈ (step s op).seedProfiles ↔
        (∃ profile : SeedProfile, profile.seedId = id ∧ op = .cacheSeedProfile profile) ∨
        (op ≠ .invalidateSeed id ∧ id ∈ s.seedProfiles)) := by
    intro hs hcache hinvalidate
    rw [hs.profiles]
    constructor
    · exact fun hmem => .inr ⟨hinvalidate, hmem⟩
    · rintro (⟨profile, -, hop⟩ | ⟨-, hmem⟩)
      · exact absurd hop (hcache profile)
      · exact hmem
  cases op with
  | cacheSeedProfile profile =>
    have hall := (s.cacheSeedProfile_profiles profile).2 id
    simp only [step, hall, Op.cacheSeedProfile.injEq, ne_eq, reduceCtorEq, not_false_eq_true,
      true_and]
    constructor
    · rintro (rfl | hmem)
      · exact .inl ⟨profile, rfl, rfl⟩
      · exact .inr hmem
    · rintro (⟨profile', rfl, rfl⟩ | hmem)
      · exact .inl rfl
      · exact .inr hmem
  | invalidateSeed seedId =>
    have hall := s.invalidateSeed_profiles seedId id
    simp only [step, hall, reduceCtorEq, and_false, exists_false, false_or, ne_eq,
      Op.invalidateSeed.injEq]
    exact and_congr_left fun _ => not_congr eq_comm
  | setTargetNames names => exact hsame ⟨rfl, rfl⟩ (by simp) (by simp)
  | recordIndexedExecution hits ordered complete =>
    exact hsame (s.recordIndexedExecution_seedsKept hits ordered complete).same (by simp) (by simp)
  | tickSelection => exact hsame s.tickSelection_seedsKept.same (by simp) (by simp)
  | suspendSelection => exact hsame ⟨rfl, rfl⟩ (by simp) (by simp)
  | refreshStates => exact hsame s.refreshStates_profiles (by simp) (by simp)
  | selectableTaskIds =>
    refine hsame ?_ (by simp) (by simp)
    simp only [step, selectableTaskIds]
    split
    · exact (rebuildSelection_seed h).1
    · exact ⟨rfl, rfl⟩
  | activateTaskWithSeedMode taskId seedRank broadenSeed =>
    refine hsame ?_ (by simp) (by simp)
    rw [step]
    rcases activateTaskWithSeedMode_seed h taskId seedRank broadenSeed with
      hnone | ⟨task, r, s', selection, -, -, -, hresult, -, -, -, hsame', -⟩
    · rw [hnone]
      exact ⟨rfl, rfl⟩
    · rw [hresult]
      exact hsame'
  | recordBudgetFailure taskId identity =>
    refine hsame ?_ (by simp) (by simp)
    simp only [step, recordBudgetFailure]
    split
    · exact (s.recordAssignedAttempt_bestSeedId taskId identity false none).2
    · exact ⟨rfl, rfl⟩

theorem SeedInv.step (h : SeedInv s) (op : Op) : SeedInv (step s op) := by
  cases op with
  | cacheSeedProfile profile => exact h.cacheSeedProfile profile
  | invalidateSeed seedId => exact h.invalidateSeed seedId
  | setTargetNames names => exact h.of_same ⟨rfl, rfl⟩
  | recordIndexedExecution hits ordered complete =>
    exact h.of_same (s.recordIndexedExecution_seedsKept hits ordered complete).same
  | tickSelection => exact h.of_same s.tickSelection_seedsKept.same
  | suspendSelection => exact h.of_same ⟨rfl, rfl⟩
  | refreshStates => exact h.of_same s.refreshStates_profiles
  | selectableTaskIds =>
    simp only [Semantic.step, selectableTaskIds]
    split
    · exact h.of_same (rebuildSelection_seed h).1
    · exact h
  | activateTaskWithSeedMode taskId seedRank broadenSeed =>
    rw [Semantic.step]
    rcases activateTaskWithSeedMode_seed h taskId seedRank broadenSeed with
      hnone | ⟨task, r, s', selection, -, -, -, hresult, -, -, -, hsame, -⟩
    · rw [hnone]
      exact h
    · rw [hresult]
      exact h.of_same hsame
  | recordBudgetFailure taskId identity =>
    simp only [Semantic.step, recordBudgetFailure]
    split
    · exact h.of_same (s.recordAssignedAttempt_bestSeedId taskId identity false none).2
    · exact h

/-- What a step records was recorded before, or has a profile. -/
theorem step_recordedFrom (h : SeedInv s) (op : Op) : RecordedFrom s (step s op) := by
  have hstates : ∀ s' : SemanticRuntimeMetadata, s'.taskStates = s.taskStates → RecordedFrom s s' :=
    fun s' heq => .of_sameField fun id => by rw [heq]
  cases op with
  | cacheSeedProfile profile => exact hstates _ (s.cacheSeedProfile_core_taskStates profile)
  | invalidateSeed seedId => exact hstates _ (s.invalidateSeed_taskStates seedId)
  | setTargetNames names => exact hstates _ rfl
  | recordIndexedExecution hits ordered complete =>
    exact .of_sameField (s.recordIndexedExecution_seedsKept hits ordered complete).recorded
  | tickSelection => exact .of_sameField s.tickSelection_seedsKept.recorded
  | suspendSelection => exact .of_sameField (steady_bestSeedId.suspendSelection _)
  | refreshStates => exact .of_sameField (steady_bestSeedId.refreshStates s)
  | selectableTaskIds =>
    simp only [step, selectableTaskIds]
    split
    · exact (rebuildSelection_seed h).2.1
    · exact .refl s
  | activateTaskWithSeedMode taskId seedRank broadenSeed =>
    rw [step]
    rcases activateTaskWithSeedMode_seed h taskId seedRank broadenSeed with
      hnone | ⟨task, r, s', selection, -, -, -, hresult, -, -, -, -, hrecorded⟩
    · rw [hnone]
      exact .refl s
    · rw [hresult]
      exact hrecorded
  | recordBudgetFailure taskId identity =>
    simp only [step, recordBudgetFailure]
    split
    · exact .of_sameField (s.recordAssignedAttempt_bestSeedId taskId identity false none).1
    · exact .refl s

end SemanticRuntimeMetadata

open SemanticRuntimeMetadata

/-! ## Runs -/

section Runs

variable {plan : SemanticTaskPlan} {mappedTargets : List Text} {id : ℕ}

/-- The seed was invalidated, and no profile has been cached for it since. -/
def Gone (ops : List Op) (id : ℕ) : Prop :=
  ∃ start rest, ops = start ++ .invalidateSeed id :: rest ∧
    ∀ profile : SeedProfile, profile.seedId = id → .cacheSeedProfile profile ∉ rest

theorem Gone.concat {ops : List Op} {op : Op} (h : Gone ops id)
    (hop : ∀ profile : SeedProfile, profile.seedId = id → op ≠ .cacheSeedProfile profile) :
    Gone (ops ++ [op]) id := by
  obtain ⟨start, rest, rfl, hrest⟩ := h
  refine ⟨start, rest ++ [op], by simp, fun profile hprofile hmem => ?_⟩
  rcases List.mem_append.1 hmem with hmem | hmem
  · exact hrest profile hprofile hmem
  · exact hop profile hprofile (List.mem_singleton.1 hmem).symm

theorem seedInv_run (ops : List Op) : SeedInv (run plan mappedTargets ops) := by
  refine List.foldlRecOn (motive := SeedInv) ops step ?_ fun s hs op _ => hs.step op
  exact ⟨fun id profile h => by simp [SemanticRuntimeMetadata.new] at h,
    fun taskId top h => by simp [SemanticRuntimeMetadata.new] at h⟩

theorem not_mem_profiles_of_gone {ops : List Op} (h : Gone ops id) :
    id ∉ (run plan mappedTargets ops).seedProfiles := by
  obtain ⟨start, rest, rfl, hrest⟩ := h
  induction rest using List.reverseRecOn with
  | nil =>
    rw [run_concat, step_profiles (seedInv_run start)]
    rintro (⟨profile, -, hop⟩ | ⟨hne, -⟩)
    · cases hop
    · exact hne rfl
  | append_singleton rest op ih =>
    have hsplit : start ++ Op.invalidateSeed id :: (rest ++ [op]) =
        (start ++ .invalidateSeed id :: rest) ++ [op] := by simp
    rw [hsplit, run_concat, step_profiles (seedInv_run _)]
    rintro (⟨profile, hprofile, rfl⟩ | ⟨-, hmem⟩)
    · exact hrest profile hprofile (List.mem_append_right _ (List.mem_singleton.2 rfl))
    · exact ih (fun profile hprofile hmem =>
        hrest profile hprofile (List.mem_append_left _ hmem)) hmem

/-- A recorded seed without a profile was invalidated. -/
theorem gone_of_recorded (ops : List Op) {taskId : Text} {r : TaskRuntimeState}
    (hr : (run plan mappedTargets ops).taskStates[taskId]? = some r) (hbest : r.bestSeedId = some id)
    (hnot : id ∉ (run plan mappedTargets ops).seedProfiles) : Gone ops id := by
  induction ops using List.reverseRecOn generalizing r with
  | nil =>
    obtain ⟨task, -, -, rfl⟩ := new_taskStates hr
    cases hbest
  | append_singleton ops op ih =>
    have hinv : SeedInv (run plan mappedTargets ops) := seedInv_run ops
    rw [run_concat] at hr hnot
    rcases step_recordedFrom hinv op taskId r id hr hbest with hlive | ⟨r₀, hr₀, hbest₀⟩
    · exact absurd hlive hnot
    · rw [step_profiles hinv, not_or] at hnot
      obtain ⟨hcache, hinvalidate⟩ := hnot
      by_cases hmem : id ∈ (run plan mappedTargets ops).seedProfiles
      · -- the profile was there, so this operation is what removed it
        have hop : op = .invalidateSeed id := by
          by_contra hop
          exact hinvalidate ⟨hop, hmem⟩
        exact ⟨ops, [], by rw [hop], fun _ _ h => nomatch h⟩
      · exact (ih hr₀ hbest₀ hmem).concat fun profile hprofile hop => hcache ⟨profile, hprofile, hop⟩

/-- No operation of the run activates a seed that is gone. -/
def NoGoneSeed (plan : SemanticTaskPlan) (mappedTargets : List Text) (ops : List Op) : Prop :=
  ∀ (before : List Op) (op : Op), before ++ [op] <+: ops → ∀ (id : ℕ) (selection : ActiveSelection),
    Gone before id → activated (run plan mappedTargets before) op = some selection →
      selection.bestSeedId ≠ some id

/-- **Invalidated seeds.**  In a run, no seed that is gone is activated if and only if no operation
activates a task without ranked seeds whose recorded best seed has lost its profile. -/
theorem noGoneSeed_iff (plan : SemanticTaskPlan) (mappedTargets : List Text) (ops : List Op) :
    NoGoneSeed plan mappedTargets ops ↔
      ∀ (before : List Op) (op : Op), before ++ [op] <+: ops →
        ¬ StaleActivation (run plan mappedTargets before) op := by
  constructor
  · intro h before op hpre hstale
    obtain ⟨selection, id, taskId, r, hop, hbest, hgone, hr, hrecorded⟩ := hstale.activated
    exact h before op hpre id selection (gone_of_recorded before hr hrecorded hgone) hop hbest
  · intro h before op hpre id selection hgone hop hbest
    exact h before op hpre
      (activated_gone (seedInv_run before) hop hbest (not_mem_profiles_of_gone hgone))

end Runs

/-- One task with one waypoint. -/
def oneTask : SemanticTaskPlan where
  tasks := [{
    taskId := "task".toList
    taskKind := []
    pou := []
    terminalTargetId := "t".toList
    orderedWaypoints := ["t".toList] }]

/-- The task is ranked with its only seed; the seed is removed while nothing is selected. -/
def removedSeed : List Op :=
  [.cacheSeedProfile {}, .selectableTaskIds, .suspendSelection, .invalidateSeed 0]

/-- The removed seed is activated again. -/
theorem not_noGoneSeed : ¬ NoGoneSeed oneTask ["t".toList]
    (removedSeed ++ [.activateTaskWithSeedMode "task".toList 0 false]) := by
  intro h
  have hgone : Gone removedSeed 0 :=
    ⟨[.cacheSeedProfile {}, .selectableTaskIds, .suspendSelection], [], rfl, fun _ _ h => nomatch h⟩
  have hop : ((activated (run oneTask ["t".toList] removedSeed)
      (.activateTaskWithSeedMode "task".toList 0 false)).map ActiveSelection.bestSeedId) =
        some (some 0) := by decide +kernel
  obtain ⟨selection, hselection, hbest⟩ := Option.map_eq_some_iff.1 hop
  exact h removedSeed _ (List.prefix_refl _) 0 selection hgone hselection hbest

end SemantiST.Semantic
