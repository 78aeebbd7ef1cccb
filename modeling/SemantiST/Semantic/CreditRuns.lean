import SemantiST.Semantic.Credit

/-!
# Credit over runs

What each operation does to the credit of the active guide, and where every credit of a run comes
from.
-/

namespace SemantiST.Semantic

open Lib

namespace SemanticRuntimeMetadata

variable {s s' s'' : SemanticRuntimeMetadata}

/-! ## Activating -/

/-- The selection that an operation activates. -/
def activated (s : SemanticRuntimeMetadata) : Op → Option ActiveSelection
  | .activateTaskWithSeedMode taskId seedRank broadenSeed =>
    (s.activateTaskWithSeedMode taskId seedRank broadenSeed).2
  | .selectableTaskIds => if s.rankingDirty then s.rebuildSelection.2 else none
  | _ => none

theorem activateTaskWithSeedMode_credit (s : SemanticRuntimeMetadata) (taskId : Text)
    (seedRank : ℕ) (broadenSeed : Bool) :
    (s.activateTaskWithSeedMode taskId seedRank broadenSeed = (s, none)) ∨
      ∃ s' selection, s.activateTaskWithSeedMode taskId seedRank broadenSeed = (s', some selection) ∧
        (∃ g : Guide, s'.guide = some g ∧ g.Of selection) ∧ Unrecorded s s' := by
  unfold activateTaskWithSeedMode
  split
  · rename_i r task hr htask
    split
    · exact .inl rfl
    · simp only
      split
      · exact .inl rfl
      · rename_i target htarget
        right
        refine ⟨_, _, rfl, ⟨_, rfl, rfl, rfl, rfl, rfl⟩, rfl, ?_, ?_, rfl⟩
        · exact sameSuccesses_activateGuide _ _ _ _ _ _ _
        · simp only [SchedulerCore.activateGuide, SchedulerCore.release, SchedulerCore.deactivate,
            SchedulerCore.setTask]
          grind
  · exact .inl rfl

theorem rebuildSelection_credit (s : SemanticRuntimeMetadata) :
    (s.rebuildSelection.2 = none ∧ Kept s s.rebuildSelection.1) ∨
      ∃ s' selection, s.rebuildSelection = (s', some selection) ∧
        (∃ g : Guide, s'.guide = some g ∧ g.Of selection) ∧ Unrecorded s s' := by
  set s₁ : SemanticRuntimeMetadata := { s with rankingStatistics := { s.rankingStatistics with
    rankingCount := saturatingAdd s.rankingStatistics.rankingCount 1
    fullRebuildCount := saturatingAdd s.rankingStatistics.fullRebuildCount 1 } }.refreshStates with hs₁
  have hrefresh : Kept s s₁ := by
    refine .trans ?_ (refreshStates_kept _)
    exact ⟨rfl, rfl, fun _ => rfl, rfl, rfl⟩
  have hrank := hrefresh.trans (s₁.rankTasks_kept [] s₁.plan.tasks)
  unfold rebuildSelection
  simp only [← hs₁]
  generalize s₁.rankTasks [] s₁.plan.tasks = result at hrank ⊢
  rcases result with ⟨s₂, _ | ranked⟩
  · exact .inl ⟨rfl, hrank⟩
  · simp only at hrank ⊢
    generalize sortBy (fun left right : Float × Text =>
      (totalCmp right.1 left.1).then (compare left.2 right.2)) ranked = ranking
    have hinstall : Kept s (s₂.installRanking (ranking.map Prod.snd)) :=
      hrank.trans ⟨rfl, rfl, fun _ => rfl, rfl, rfl⟩
    cases ranking with
    | nil => exact .inl ⟨rfl, hinstall⟩
    | cons entry ranking =>
      rcases entry with ⟨priority, taskId⟩
      simp only [activateTask]
      rcases activateTaskWithSeedMode_credit (s₂.installRanking (taskId :: ranking.map Prod.snd))
        taskId 0 false with hnone | ⟨s', selection, hsome, hguide, hunrecorded⟩
      · left
        simp only [List.map_cons, hnone]
        exact ⟨trivial, hinstall⟩
      · right
        simp only [List.map_cons]
        exact ⟨s', selection, hsome, hguide, hunrecorded.of_kept hinstall⟩

/-- What a step does to the selection and to what is credited. -/
inductive StepCredit (s : SemanticRuntimeMetadata) (op : Op) : Prop
  | install {selection : ActiveSelection} (hop : activated s op = some selection)
      (guide : ∃ g : Guide, (step s op).guide = some g ∧ g.Of selection) (quiet : Quiet s (step s op))
  | keep (guide : (step s op).guide = s.guide)
      (succeeded : (step s op).activeSelectionSucceeded = s.activeSelectionSucceeded)
      (quiet : Quiet s (step s op))
  | clear (guide : (step s op).guide = none) (quiet : Quiet s (step s op))
  | credit {hits ordered : List ℕ} {complete : Bool} {g : Guide}
      (hop : op = .recordIndexedExecution hits ordered complete) (credit : Credit s ordered g)
      (credited : Credited g s (step s op))

theorem StepCredit.of_kept {op : Op} (h : Kept s (step s op)) : StepCredit s op :=
  .keep (by rw [h.fields]) (by rw [h.fields]) h.quiet

theorem invalidateSeed_credit (s : SemanticRuntimeMetadata) (seedId : ℕ) :
    (s.invalidateSeed seedId).guide = s.guide ∧
      (s.invalidateSeed seedId).activeSelectionSucceeded = s.activeSelectionSucceeded ∧
      Quiet s (s.invalidateSeed seedId) ∧ SameTable s (s.invalidateSeed seedId) := by
  have hquiet : ∀ s' : SemanticRuntimeMetadata, s'.attemptHistory = s.attemptHistory →
      s'.taskStates = s.taskStates → Quiet s s' := fun s' hattempts hstates =>
    ⟨fun a ha => absurd ha (not_recorded_self a hattempts), fun id => by rw [hstates]⟩
  unfold invalidateSeed
  split
  · exact ⟨rfl, rfl, hquiet _ rfl rfl, rfl, rfl⟩
  · simp only
    split
    · exact ⟨rfl, rfl, hquiet _ rfl rfl, rfl, rfl⟩
    · exact ⟨rfl, rfl, hquiet _ rfl rfl, rfl, rfl⟩

/-- A failure credits nothing. -/
theorem recordBudgetFailure_credit (s : SemanticRuntimeMetadata) (id identity : Text) :
    ((s.recordBudgetFailure id identity).toSelectionFields = s.toSelectionFields ∨
      (s.recordBudgetFailure id identity).toSelectionFields = {}) ∧
      Quiet s (s.recordBudgetFailure id identity) ∧
      SameTable s (s.recordBudgetFailure id identity) := by
  unfold recordBudgetFailure
  split
  · unfold recordAssignedAttempt
    cases identityFields identity with
    | none => exact ⟨.inl rfl, (Kept.refl s).quiet, rfl, rfl⟩
    | some fields =>
      simp only [Bool.false_eq_true, if_false]
      set a : AttemptHistory := {
        taskId := id
        guideTargetId := some fields.2.2
        pathKey := some fields.1
        guideIndex := some fields.2.1
        seedId := none
        covered := false
        coverageEpoch := s.coverageEpoch } with ha
      have hquiet : ∀ s', s'.attemptHistory = (s.pushAttempt a).attemptHistory →
          SameSuccesses s.toSchedulerCore s'.toSchedulerCore → Quiet s s' := by
        intro s' hattempts hsucc
        refine ⟨fun a' ha' => ?_, hsucc⟩
        rw [ha'.unique hattempts]
      cases hr : (s.pushAttempt a).taskStates[id]? with
      | none => exact ⟨.inl rfl, hquiet _ rfl fun _ => rfl, rfl, rfl⟩
      | some r =>
        refine ⟨?_, hquiet _ ?_ ?_, ?_, ?_⟩
        · rw [recordFailure_core]
          exact recordFailure_fields _ id r
        · unfold recordFailure
          simp only
          split <;> rfl
        · rw [recordFailure_core]
          exact steady_guideSuccesses.recordFailure hr
        · rw [recordFailure_core]
          exact recordFailure_targetIndices _ id r
        · unfold recordFailure
          simp only
          split <;> rfl
  · exact ⟨.inl rfl, (Kept.refl s).quiet, rfl, rfl⟩

theorem guide_of_fields {f f' : SelectionFields} (h : f = f' ∨ f = {}) :
    (f.guide = f'.guide ∧ f.activeSelectionSucceeded = f'.activeSelectionSucceeded) ∨
      f.guide = none := by
  rcases h with rfl | rfl
  · exact .inl ⟨rfl, rfl⟩
  · exact .inr rfl

/-- **What a step does to the credit**: a selection is activated, kept, cleared or credited. -/
theorem step_credit (h : GuideInv s.toSchedulerCore) (op : Op) : StepCredit s op := by
  cases op with
  | cacheSeedProfile profile => exact .of_kept (s.cacheSeedProfile_kept profile)
  | invalidateSeed seedId =>
    obtain ⟨hguide, hsucceeded, hquiet, -⟩ := s.invalidateSeed_credit seedId
    exact .keep hguide hsucceeded hquiet
  | setTargetNames names =>
    refine .keep rfl rfl ⟨fun a ha => ?_, fun _ => rfl⟩
    exact absurd ha (not_recorded_self a rfl)
  | recordIndexedExecution hits ordered complete =>
    rcases recordIndexedExecution_credit h hits ordered complete with hkept | ⟨g, hcredit, hcredited⟩
    · exact .of_kept hkept
    · exact .credit rfl hcredit hcredited
  | tickSelection => exact .of_kept s.tickSelection_kept
  | suspendSelection =>
    refine .clear ?_ ⟨fun a ha => ?_, steady_guideSuccesses.suspendSelection _⟩
    · exact guide_eq_none (by
        rw [step, suspendSelection_core, SchedulerCore.suspendSelection_fields])
    · exact absurd ha (not_recorded_self a rfl)
  | refreshStates => exact .of_kept s.refreshStates_kept
  | selectableTaskIds =>
    cases hdirty : s.rankingDirty with
    | false =>
      refine .of_kept ?_
      simp only [step, selectableTaskIds, hdirty, Bool.false_eq_true, if_false]
      exact .refl s
    | true =>
      have hstep : step s .selectableTaskIds = s.rebuildSelection.1 := by
        simp only [step, selectableTaskIds, hdirty, if_true]
      have hop : activated s .selectableTaskIds = s.rebuildSelection.2 := by
        simp only [activated, hdirty, if_true]
      rcases s.rebuildSelection_credit with ⟨-, hkept⟩ | ⟨s', selection, hsome, hguide, hunrecorded⟩
      · exact .of_kept (hstep ▸ hkept)
      · rw [hsome] at hstep hop
        exact .install hop (hstep ▸ hguide) (hstep ▸ hunrecorded.quiet)
  | activateTaskWithSeedMode taskId seedRank broadenSeed =>
    rcases s.activateTaskWithSeedMode_credit taskId seedRank broadenSeed with
      hnone | ⟨s', selection, hsome, hguide, hunrecorded⟩
    · have hstep : step s (.activateTaskWithSeedMode taskId seedRank broadenSeed) = s := by
        rw [step, hnone]
      exact .of_kept (hstep.symm ▸ .refl s)
    · have hstep : step s (.activateTaskWithSeedMode taskId seedRank broadenSeed) = s' := by
        rw [step, hsome]
      exact .install (by rw [activated, hsome]) (hstep ▸ hguide) (hstep ▸ hunrecorded.quiet)
  | recordBudgetFailure taskId identity =>
    obtain ⟨hfields, hquiet, -⟩ := s.recordBudgetFailure_credit taskId identity
    rcases guide_of_fields hfields with ⟨hguide, hsucceeded⟩ | hguide
    · exact .keep hguide hsucceeded hquiet
    · exact .clear hguide hquiet

/-! ## The history -/

theorem recordAssignedAttempt_history (s : SemanticRuntimeMetadata) (id identity : Text)
    (covered : Bool) (seedId : Option ℕ) :
    (s.recordAssignedAttempt id identity covered seedId).attemptHistory = s.attemptHistory ∨
      ∃ a, Recorded s (s.recordAssignedAttempt id identity covered seedId) a := by
  unfold recordAssignedAttempt
  cases identityFields identity with
  | none => exact .inl rfl
  | some fields =>
    right
    refine ⟨{
      taskId := id
      guideTargetId := some fields.2.2
      pathKey := some fields.1
      guideIndex := some fields.2.1
      seedId := seedId
      covered := covered
      coverageEpoch := s.coverageEpoch }, ?_⟩
    simp only
    split
    · rfl
    · split
      · exact (recordSuccess_fields _ _ _ _).2.1
      · unfold recordFailure
        simp only
        split <;> rfl

theorem recordAttempt_history (s : SemanticRuntimeMetadata) (seedId : Option ℕ) :
    (s.recordAttempt true seedId).attemptHistory = s.attemptHistory ∨
      ∃ a, Recorded s (s.recordAttempt true seedId) a := by
  unfold recordAttempt
  split
  · split
    · exact .inl rfl
    · simp only [if_true]
      exact recordAssignedAttempt_history { s with activeSelectionSucceeded := true } _ _ _ _
  · exact .inl rfl

/-- A step records at most one attempt. -/
theorem step_history (s : SemanticRuntimeMetadata) (op : Op) :
    (step s op).attemptHistory = s.attemptHistory ∨ ∃ a, Recorded s (step s op) a := by
  cases op with
  | cacheSeedProfile profile => exact .inl (s.cacheSeedProfile_kept profile).attempts
  | invalidateSeed seedId =>
    left
    simp only [step, invalidateSeed]
    split
    · rfl
    · split <;> rfl
  | setTargetNames names => exact .inl rfl
  | recordIndexedExecution hits ordered complete =>
    have hcover := (s.coverHits_kept hits).attempts
    simp only [step, recordIndexedExecution]
    generalize s.coverHits hits = covered at hcover ⊢
    rcases covered with ⟨s₁, advanced⟩
    simp only at hcover
    suffices hordered : (s₁.recordOrdered ordered).1.attemptHistory = s.attemptHistory ∨
        ∃ a, Recorded s (s₁.recordOrdered ordered).1 a by
      split
      · exact hordered
      · exact hordered
    unfold recordOrdered
    split
    · rename_i id hid
      have himprove := (improvePrefix_kept s₁ id
        (orderedPrefixLenIndexed s₁.activePathIndices ordered)).attempts
      simp only
      generalize s₁.improvePrefix id (orderedPrefixLenIndexed s₁.activePathIndices ordered) = improved
        at himprove ⊢
      rcases improved with ⟨s₂, flag⟩
      have himprove := himprove.trans hcover
      simp only at himprove ⊢
      split
      · have hattempt := recordAttempt_history s₂ s₂.bestSeedId
        unfold Recorded pushAttempt at hattempt ⊢
        rw [himprove] at hattempt
        exact hattempt
      · exact .inl himprove
    · exact .inl hcover
  | tickSelection => exact .inl s.tickSelection_kept.attempts
  | suspendSelection => exact .inl rfl
  | refreshStates => exact .inl s.refreshStates_kept.attempts
  | selectableTaskIds =>
    left
    simp only [step, selectableTaskIds]
    split
    · rcases s.rebuildSelection_credit with ⟨-, hkept⟩ | ⟨s', selection, hsome, -, hunrecorded⟩
      · exact hkept.attempts
      · rw [hsome]
        exact hunrecorded.attempts
    · rfl
  | activateTaskWithSeedMode taskId seedRank broadenSeed =>
    left
    rw [step]
    rcases s.activateTaskWithSeedMode_credit taskId seedRank broadenSeed with
      hnone | ⟨s', selection, hsome, -, hunrecorded⟩
    · rw [hnone]
    · rw [hsome]
      exact hunrecorded.attempts
  | recordBudgetFailure taskId identity =>
    simp only [step, recordBudgetFailure]
    split
    · exact s.recordAssignedAttempt_history taskId identity false none
    · exact .inl rfl

/-! ## The interned targets -/

/-- Only one operation changes the interned targets. -/
theorem step_table (h : GuideInv s.toSchedulerCore) (op : Op) :
    (∃ names, op = .setTargetNames names) ∨ SameTable s (step s op) := by
  cases op with
  | cacheSeedProfile profile => exact .inr (s.cacheSeedProfile_kept profile).table
  | invalidateSeed seedId => exact .inr (s.invalidateSeed_credit seedId).2.2.2
  | setTargetNames names => exact .inl ⟨names, rfl⟩
  | recordIndexedExecution hits ordered complete =>
    rcases recordIndexedExecution_credit h hits ordered complete with hkept | ⟨g, -, hcredited⟩
    · exact .inr hkept.table
    · exact .inr hcredited.table
  | tickSelection => exact .inr s.tickSelection_kept.table
  | suspendSelection => exact .inr ⟨suspendSelection_targetIndices _, rfl⟩
  | refreshStates => exact .inr s.refreshStates_kept.table
  | selectableTaskIds =>
    right
    simp only [step, selectableTaskIds]
    split
    · rcases s.rebuildSelection_credit with ⟨-, hkept⟩ | ⟨s', selection, hsome, -, hunrecorded⟩
      · exact hkept.table
      · rw [hsome]
        exact hunrecorded.table
    · exact ⟨rfl, rfl⟩
  | activateTaskWithSeedMode taskId seedRank broadenSeed =>
    right
    rw [step]
    rcases s.activateTaskWithSeedMode_credit taskId seedRank broadenSeed with
      hnone | ⟨s', selection, hsome, -, hunrecorded⟩
    · rw [hnone]
      exact ⟨rfl, rfl⟩
    · rw [hsome]
      exact hunrecorded.table
  | recordBudgetFailure taskId identity => exact .inr (s.recordBudgetFailure_credit taskId identity).2.2

/-- An index of a table that fits in 32 bits names its target. -/
def TableInv (s : SemanticRuntimeMetadata) : Prop :=
  s.targetNames.length ≤ u32Max + 1 → ∀ (name : Text) (index : ℕ),
    s.targetIndices[name]? = some index → s.targetNames[index]? = some name

theorem TableInv.of_same (h : TableInv s) (htable : SameTable s s') : TableInv s' := by
  unfold TableInv
  rw [htable.indices, htable.names]
  exact h

theorem tableInv_setTargetNames (s : SemanticRuntimeMetadata) (names : List Text) :
    TableInv (s.setTargetNames names) := by
  intro hlen name index hindex
  have hlen : names.length ≤ u32Max + 1 := hlen
  have hall : ∀ (name : Text) (index : ℕ),
      (names.zipIdx.foldl (fun (m : Std.ExtTreeMap Text ℕ compare) (p : Text × ℕ) =>
        m.insert p.1 (p.2 % (u32Max + 1))) ∅)[name]? = some index → names[index]? = some name := by
    refine List.foldlRecOn (motive := fun m : Std.ExtTreeMap Text ℕ compare =>
      ∀ (name : Text) (index : ℕ), m[name]? = some index → names[index]? = some name)
      names.zipIdx _ ?_ ?_
    · intro name index h
      simp at h
    · rintro m ih ⟨key, position⟩ hmem name index h
      have hposition := List.mk_mem_zipIdx_iff_getElem?.1 hmem
      obtain ⟨hlt, -⟩ := List.getElem?_eq_some_iff.1 hposition
      rw [getElem?_insert_eq] at h
      split at h
      · rename_i hkey
        obtain rfl := Option.some.inj h
        rw [Nat.mod_eq_of_lt (by omega), hposition]
        exact congrArg some hkey
      · exact ih name index h
  exact hall name index hindex

/-- What the indices show, the names of the table show. -/
theorem sublist_names (h : TableInv s) (hlen : s.targetNames.length ≤ u32Max + 1) {path : List Text}
    {ordered : List ℕ} (hshown : (s.indexPath path).Sublist (ordered.map some)) :
    path.Sublist (ordered.filterMap fun index => s.targetNames[index]?) := by
  have hnames : (s.indexPath path).filterMap (fun index => index.bind fun i => s.targetNames[i]?) =
      path := by
    rw [SchedulerCore.indexPath, List.filterMap_map]
    have hall : ∀ name ∈ path, ((s.targetIndices[name]?).bind fun i => s.targetNames[i]?) =
        some name := by
      intro name hname
      have hmem : s.targetIndices[name]? ∈ ordered.map some :=
        hshown.subset (List.mem_map_of_mem hname)
      obtain ⟨index, -, hindex⟩ := List.mem_map.1 hmem
      rw [← hindex, Option.bind_some, h hlen name index hindex.symm]
    exact (List.filterMap_congr hall).trans List.filterMap_some
  have hshown := hshown.filterMap fun index => index.bind fun i => s.targetNames[i]?
  rw [hnames, List.filterMap_map] at hshown
  exact hshown

end SemanticRuntimeMetadata

open SemanticRuntimeMetadata

/-! ## Runs -/

section Runs

variable {plan : SemanticTaskPlan} {mappedTargets : List Text}

theorem run_concat (ops : List Op) (op : Op) :
    run plan mappedTargets (ops ++ [op]) = step (run plan mappedTargets ops) op := by
  rw [run, List.foldl_append]
  rfl

/-- The selection was activated by the operation and has been active since. -/
structure ActiveSince (plan : SemanticTaskPlan) (mappedTargets : List Text) (start : List Op)
    (op : Op) (rest : List Op) (g : Guide) : Prop where
  activated : ∃ selection, activated (run plan mappedTargets start) op = some selection ∧
    g.Of selection
  guide : ∀ part, part <+: rest → (run plan mappedTargets (start ++ op :: part)).guide = some g

/-- Nothing has been credited since the selection was activated. -/
def Uncredited (plan : SemanticTaskPlan) (mappedTargets : List Text) (start : List Op) (op : Op)
    (rest : List Op) : Prop :=
  ∀ part next, part ++ [next] <+: rest → Quiet (run plan mappedTargets (start ++ op :: part))
    (run plan mappedTargets (start ++ op :: (part ++ [next])))

theorem ActiveSince.concat {start rest : List Op} {op next : Op} {g : Guide}
    (h : ActiveSince plan mappedTargets start op rest g)
    (hnext : (run plan mappedTargets (start ++ op :: (rest ++ [next]))).guide = some g) :
    ActiveSince plan mappedTargets start op (rest ++ [next]) g := by
  refine ⟨h.activated, fun part hpart => ?_⟩
  rcases List.prefix_concat_iff.1 hpart with rfl | hpart
  · exact hnext
  · exact h.guide part hpart

theorem Uncredited.concat {start rest : List Op} {op next : Op}
    (h : Uncredited plan mappedTargets start op rest)
    (hnext : Quiet (run plan mappedTargets (start ++ op :: rest))
      (run plan mappedTargets (start ++ op :: (rest ++ [next])))) :
    Uncredited plan mappedTargets start op (rest ++ [next]) := by
  intro part next' hpart
  rcases List.prefix_concat_iff.1 hpart with heq | hpart
  · obtain ⟨rfl, hnext'⟩ := List.append_inj' heq rfl
    obtain rfl := List.singleton_inj.1 hnext'
    exact hnext
  · exact h part next' hpart

theorem guideInv_run (ops : List Op) : GuideInv (run plan mappedTargets ops).toSchedulerCore := by
  refine List.foldlRecOn (motive := fun s : SemanticRuntimeMetadata => GuideInv s.toSchedulerCore)
    ops step ?_ fun s hs op _ => hs.step op
  exact ⟨selectionInv_new plan mappedTargets, fun id hid => nomatch hid⟩

theorem tableInv_run (ops : List Op) : TableInv (run plan mappedTargets ops) := by
  induction ops using List.reverseRecOn with
  | nil =>
    intro _ name index hindex
    simp [run, SemanticRuntimeMetadata.new] at hindex
  | append_singleton ops op ih =>
    rw [run_concat]
    rcases step_table (guideInv_run ops) op with ⟨names, rfl⟩ | htable
    · exact tableInv_setTargetNames _ names
    · exact ih.of_same htable

/-- Where the active guide comes from. -/
theorem exists_activeSince (ops : List Op) {g : Guide}
    (hg : (run plan mappedTargets ops).guide = some g) :
    ∃ start op rest, ops = start ++ op :: rest ∧ ActiveSince plan mappedTargets start op rest g ∧
      ((run plan mappedTargets ops).activeSelectionSucceeded = false →
        Uncredited plan mappedTargets start op rest) := by
  induction ops using List.reverseRecOn with
  | nil => cases hg
  | append_singleton ops op ih =>
    rw [run_concat] at hg ⊢
    cases step_credit (guideInv_run ops) op with
    | install hop guide quiet =>
      obtain ⟨g', hg', hof⟩ := guide
      rw [hg, Option.some.injEq] at hg'
      subst hg'
      refine ⟨ops, op, [], rfl, ⟨⟨_, hop, hof⟩, fun part hpart => ?_⟩, fun _ part next hpart => ?_⟩
      · rw [List.prefix_nil.1 hpart, run_concat]
        exact hg
      · simp at hpart
    | keep guide succeeded quiet =>
      rw [guide] at hg
      obtain ⟨start, activation, rest, rfl, hactive, hfirst⟩ := ih hg
      have hsplit : start ++ activation :: (rest ++ [op]) = (start ++ activation :: rest) ++ [op] := by
        simp
      refine ⟨start, activation, rest ++ [op], hsplit.symm, hactive.concat ?_, fun hflag => ?_⟩
      · rw [hsplit, run_concat, guide]
        exact hg
      · refine (hfirst (succeeded ▸ hflag)).concat ?_
        rw [hsplit, run_concat]
        exact quiet
    | clear guide quiet =>
      rw [guide] at hg
      cases hg
    | credit hop credit credited =>
      rw [credited.guide] at hg
      obtain ⟨start, activation, rest, rfl, hactive, hfirst⟩ := ih hg
      have hsplit : start ++ activation :: (rest ++ [op]) = (start ++ activation :: rest) ++ [op] := by
        simp
      refine ⟨start, activation, rest ++ [op], hsplit.symm, hactive.concat ?_, fun hflag => ?_⟩
      · rw [hsplit, run_concat, credited.guide]
        exact hg
      · rw [credited.succeeded] at hflag
        cases hflag

/-- One execution justifies a credit for the guide: it is recorded while the guide's selection is
active, nothing has been credited since that was activated, and its order shows the path up to the
guide, by index and by name. -/
structure Justified (plan : SemanticTaskPlan) (mappedTargets : List Text) (before : List Op)
    (op : Op) (g : Guide) : Prop where
  active : ∃ start activation rest, before = start ++ activation :: rest ∧
    ActiveSince plan mappedTargets start activation rest g ∧
    Uncredited plan mappedTargets start activation rest
  guide : g.path[g.index]? = some g.target
  execution : ∃ hits ordered complete, op = .recordIndexedExecution hits ordered complete ∧
    ((run plan mappedTargets before).indexPath (g.path.take (g.index + 1))).Sublist
      (ordered.map some) ∧
    ((run plan mappedTargets before).targetNames.length ≤ u32Max + 1 →
      (g.path.take (g.index + 1)).Sublist
        (ordered.filterMap fun index => (run plan mappedTargets before).targetNames[index]?))

theorem justified_of_credit {before : List Op} {op : Op} {g : Guide} {hits ordered : List ℕ}
    {complete : Bool} (hop : op = .recordIndexedExecution hits ordered complete)
    (h : Credit (run plan mappedTargets before) ordered g) :
    Justified plan mappedTargets before op g := by
  obtain ⟨start, activation, rest, rfl, hactive, hfirst⟩ := exists_activeSince before h.guide
  refine ⟨⟨start, activation, rest, rfl, hactive, hfirst h.first⟩, ?_, hits, ordered, complete, hop,
    h.shown, fun hlen => sublist_names (tableInv_run _) hlen h.shown⟩
  obtain ⟨hid, -, hindex, htarget, hpath⟩ := guide_eq_some h.guide
  obtain ⟨index, target, hindex', htarget', hentry⟩ := (guideInv_run _).selection.guide _ hid
  rw [hindex, Option.some.injEq] at hindex'
  rw [htarget, Option.some.injEq] at htarget'
  rw [← hpath, hindex', htarget']
  exact hentry

/-- An attempt of the history was recorded by a step. -/
theorem exists_recorded (ops : List Op) {a : AttemptHistory}
    (ha : a ∈ (run plan mappedTargets ops).attemptHistory) :
    ∃ before op, before ++ [op] <+: ops ∧
      Recorded (run plan mappedTargets before) (run plan mappedTargets (before ++ [op])) a := by
  induction ops using List.reverseRecOn with
  | nil => cases ha
  | append_singleton ops op ih =>
    have hearlier : a ∈ (run plan mappedTargets ops).attemptHistory → ∃ before next,
        before ++ [next] <+: ops ++ [op] ∧ Recorded (run plan mappedTargets before)
          (run plan mappedTargets (before ++ [next])) a := fun hmem => by
      obtain ⟨before, next, hprefix, hrec⟩ := ih hmem
      exact ⟨before, next, hprefix.trans (List.prefix_append ops [op]), hrec⟩
    rcases step_history (run plan mappedTargets ops) op with hsame | ⟨a', hrec⟩
    · rw [run_concat, hsame] at ha
      exact hearlier ha
    · rw [← run_concat] at hrec
      have hhistory := hrec
      unfold Recorded pushAttempt at hhistory
      rw [hhistory] at ha
      rcases List.mem_append.1 ha with ha | ha
      · refine hearlier ?_
        split at ha
        · exact List.mem_of_mem_drop ha
        · exact ha
      · obtain rfl := List.mem_singleton.1 ha
        exact ⟨ops, op, List.prefix_refl _, hrec⟩

/-- **Guide credit is sound.**  In every run, each attempt recorded as covered and each increment of
a guide's successes is justified by the one execution of that step, and goes to the guide that was
active before it; and the attempts of the history are attempts that some step recorded. -/
theorem run_guideCredit (plan : SemanticTaskPlan) (mappedTargets : List Text) (before : List Op)
    (op : Op) :
    (∀ a, Recorded (run plan mappedTargets before) (run plan mappedTargets (before ++ [op])) a →
      a.covered = true → ∃ g, Justified plan mappedTargets before op g ∧ AttemptAt g a) ∧
    (∀ taskId identity,
      (run plan mappedTargets (before ++ [op])).guideSuccessCount taskId identity ≠
        (run plan mappedTargets before).guideSuccessCount taskId identity →
      (run plan mappedTargets (before ++ [op])).guideSuccessCount taskId identity =
        saturatingAdd ((run plan mappedTargets before).guideSuccessCount taskId identity) 1 ∧
      ∃ g, Justified plan mappedTargets before op g ∧ taskId = g.taskId ∧ identity = g.identity) ∧
    (∀ a ∈ (run plan mappedTargets before).attemptHistory, ∃ earlier next,
      earlier ++ [next] <+: before ∧
      Recorded (run plan mappedTargets earlier) (run plan mappedTargets (earlier ++ [next])) a) := by
  refine ⟨fun a ha hcov => ?_, fun taskId identity hne => ?_, fun a ha => exists_recorded before ha⟩
  · rw [run_concat] at ha
    have hquiet : ¬ Quiet (run plan mappedTargets before) (step (run plan mappedTargets before) op) :=
      fun h => by
        rw [h.attempts a ha] at hcov
        cases hcov
    cases step_credit (guideInv_run before) op with
    | install hop guide quiet => exact absurd quiet hquiet
    | keep guide succeeded quiet => exact absurd quiet hquiet
    | clear guide quiet => exact absurd quiet hquiet
    | @credit hits ordered complete g hop credit credited =>
      exact ⟨g, justified_of_credit hop credit, credited.attempts a ha⟩
  · rw [run_concat] at hne ⊢
    have hquiet : ¬ Quiet (run plan mappedTargets before) (step (run plan mappedTargets before) op) :=
      fun h => hne (guideSuccessCount_congr h.successes taskId identity)
    cases step_credit (guideInv_run before) op with
    | install hop guide quiet => exact absurd quiet hquiet
    | keep guide succeeded quiet => exact absurd quiet hquiet
    | clear guide quiet => exact absurd quiet hquiet
    | @credit hits ordered complete g hop credit credited =>
      obtain ⟨hid, hidentity, hcount, -⟩ := credited.successes taskId identity hne
      exact ⟨hcount, g, justified_of_credit hop credit, hid, hidentity⟩

end Runs

end SemantiST.Semantic
