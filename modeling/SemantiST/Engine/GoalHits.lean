import SemantiST.Engine.Transparency

/-!
# Goal hits under caching

The harness clears the goal map before each execution and `execute_with_cache` clears it before
each frame it runs, but not between the frames of a validation replay.  So a replayed frame shows
the goals of `init` and of the frames before it as well, and what it shows is filed with the
snapshots.  The hits are those of the cold run exactly when each replayed frame hits these goals
anyway.
-/

namespace SemantiST.Engine

open Lib

variable {b : V3Bundle} {m : Machine b.abi}

/-! ## The goal map -/

theorem semanticHit_pos (size : ℕ) (map : GoalMap) (runtimeId id : ℕ) :
    0 < semanticHit size map runtimeId id ↔ 0 < map id ∨ (id < size ∧ id = runtimeId) := by
  unfold semanticHit
  split
  · rename_i hsize
    by_cases hid : id = runtimeId
    · subst hid
      rw [Function.update_self]
      split <;> omega
    · rw [Function.update_of_ne hid]
      simp [hid]
  · rename_i hsize
    constructor
    · exact .inl
    · rintro (h | ⟨h, rfl⟩)
      · exact h
      · exact absurd h hsize

/-- A goal is counted once it was counted before or is among the hits. -/
theorem foldl_semanticHit_pos (size : ℕ) (hits : List ℕ) (map : GoalMap) (id : ℕ) :
    0 < hits.foldl (semanticHit size) map id ↔ 0 < map id ∨ (id < size ∧ id ∈ hits) := by
  induction hits generalizing map with
  | nil => simp
  | cons hit hits ih =>
    rw [List.foldl_cons, ih, semanticHit_pos, List.mem_cons]
    tauto

theorem mem_goalHits {goals : GoalMap} {id : ℕ} : id ∈ goalHits b m goals ↔
    id ∈ b.tasks.filterMap V3Task.runtimeId ∧ id < m.goalMapSize ∧ 0 < goals id := by
  simp [goalHits, goalMapHit]

/-- What is shown after some hits is what was shown before them and what they alone would show. -/
theorem mem_goalHits_foldl {hits : List ℕ} {goals : GoalMap} {id : ℕ} :
    id ∈ goalHits b m (hits.foldl (semanticHit m.goalMapSize) goals) ↔
      id ∈ goalHits b m goals ∨
      id ∈ goalHits b m (hits.foldl (semanticHit m.goalMapSize) clearGoalMap) := by
  simp only [mem_goalHits, foldl_semanticHit_pos, clearGoalMap]
  have : ¬0 < 0 := lt_irrefl 0
  tauto

theorem goalHits_eq_iff {goals goals' : GoalMap} : goalHits b m goals = goalHits b m goals' ↔
    ∀ id, id ∈ goalHits b m goals ↔ id ∈ goalHits b m goals' := by
  simp only [goalHits, sortDedup_eq_iff, mem_sortDedup]

/-- **When a frame shows its own hits**: the goals already counted are all among them. -/
theorem goalHits_foldl_eq_iff {hits : List ℕ} {goals : GoalMap} :
    goalHits b m (hits.foldl (semanticHit m.goalMapSize) goals) =
        goalHits b m (hits.foldl (semanticHit m.goalMapSize) clearGoalMap) ↔
      goalHits b m goals ⊆ goalHits b m (hits.foldl (semanticHit m.goalMapSize) clearGoalMap) := by
  rw [goalHits_eq_iff]
  constructor
  · intro h id hid
    exact (h id).1 (mem_goalHits_foldl.2 (.inl hid))
  · intro h id
    rw [mem_goalHits_foldl]
    exact ⟨fun hid => hid.elim (fun hid => h hid) fun hid => hid, .inr⟩

/-! ## A replay -/

theorem FrameObservation.Agree.eq {o o' : FrameObservation} (h : o.Agree o')
    (hgoals : o'.goalHits = o.goalHits) : o = o' := by
  obtain ⟨hindex, htime, hvalues⟩ := h
  cases o
  cases o'
  simp only at hindex htime hvalues hgoals
  rw [hindex, htime, hvalues, hgoals]

theorem eq_of_agree {observations observations' : List FrameObservation}
    (h : List.Forall₂ FrameObservation.Agree observations observations')
    (hgoals : observations'.map FrameObservation.goalHits =
      observations.map FrameObservation.goalHits) : observations = observations' := by
  induction h with
  | nil => rfl
  | cons ho _ ih =>
    obtain ⟨hhead, htail⟩ := List.cons.inj hgoals
    rw [ho.eq hhead, ih htail]

/-- **What a replay shows**: the hits of the cold run, exactly when these only grow from those that
were in the map. -/
theorem replayPrefix_goalHits (index : ℕ) (frames : List Frame) :
    ∀ (time : ℕ) (frame frame' : m.FrameBuffer) (shown : List FrameObservation)
      (native : Native m) (state : m.State) (observations observations' : List FrameObservation),
      coldFrames b m index frames time frame native.state = .ok (state, observations) →
      (replayPrefix b m index frames time frame' shown native).1 = .ok (shown ++ observations') →
      (observations'.map FrameObservation.goalHits = observations.map FrameObservation.goalHits ↔
        (goalHits b m native.goals :: observations.map FrameObservation.goalHits).IsChain (· ⊆ ·)) := by
  induction frames generalizing index with
  | nil =>
    intro time frame frame' shown native state observations observations' hcold hrep
    obtain ⟨-, rfl⟩ : native.state = state ∧ [] = observations := by simpa [coldFrames] using hcold
    obtain rfl : observations' = [] := by simpa [replayPrefix] using hrep
    simp
  | cons value frames ih =>
    intro time frame frame' shown native state observations observations' hcold hrep
    obtain ⟨result, state', hits, hexec⟩ := executeFrame_spec (m := m) index value native.state
    simp only [coldFrames, hexec] at hcold
    simp only [replayPrefix, hexec] at hrep
    cases result with
    | error e => cases hcold
    | ok p =>
      rcases p with ⟨dt, frame''⟩
      simp only at hcold hrep
      cases hr : coldFrames b m (index + 1) frames (saturatingAdd time dt) frame'' state' with
      | error e => simp [hr, Except.map] at hcold
      | ok q =>
        rcases q with ⟨state'', rest⟩
        simp only [hr, Except.map, Except.ok.injEq, Prod.mk.injEq] at hcold
        obtain ⟨-, rfl⟩ := hcold
        set after : Native m := ⟨state', hits.foldl (semanticHit m.goalMapSize) native.goals⟩ with hafter
        set o' := captureFrameObservation b m index (saturatingAdd time dt) after with ho'
        -- the replay shows this frame and then the others
        obtain ⟨rest', goals, hrest, -⟩ := replayPrefix_spec (m := m) (index + 1) frames
          (saturatingAdd time dt) frame'' frame'' (shown ++ [o']) after state'' rest hr
        rw [hrest] at hrep
        obtain rfl : o' :: rest' = observations' := by simpa using hrep
        have hih := ih (index + 1) (saturatingAdd time dt) frame'' frame'' (shown ++ [o']) after state''
          rest rest' hr (by rw [hrest])
        have hfirst : o'.goalHits = goalHits b m after.goals := rfl
        simp only [List.map_cons, List.cons.injEq, List.isChain_cons_cons, hfirst]
        rw [show (captureFrameObservation b m index (saturatingAdd time dt)
            (⟨state', hits.foldl (semanticHit m.goalMapSize) clearGoalMap⟩ : Native m)).goalHits =
          goalHits b m (hits.foldl (semanticHit m.goalMapSize) clearGoalMap) from rfl,
          goalHits_foldl_eq_iff]
        refine and_congr_right fun hsub => ?_
        rw [hih, hafter, goalHits_foldl_eq_iff.2 hsub]

/-! ## Executions of the harness -/

namespace Call

/-- The call as the harness makes it: with an empty goal map (`v3_clear_maps`). -/
def cleared (call : Call b m) : Call b m :=
  { call with native := { call.native with goals := clearGoalMap } }

/-- An execution of the harness: an error empties the cache. -/
def harness (call : Call b m) (cache : PrefixCache) : Except ExecError ExecOutcome × PrefixCache :=
  match call.cleared.run cache with
  | (.ok outcome, cache, _) => (.ok outcome, cache)
  | (.error e, cache, _) => (.error e, cache.clear)

/-- What the execution returns shows the goal hits of the cold run. -/
def Exact (cache : PrefixCache) (call : Call b m) : Prop :=
  ∀ outcome, (call.harness cache).1 = .ok outcome →
    ∃ state observations, coldExecute b m call.text = .ok (state, observations) ∧
      outcome.observations.map FrameObservation.goalHits =
        observations.map FrameObservation.goalHits

/-- If the text runs and its cached prefix is validated, every frame of the prefix hits each goal
that `init` or the frame before it hits. -/
def GoalsGrow (cache : PrefixCache) (call : Call b m) : Prop :=
  ∀ case state observations, parseTestcase call.text (schema b.abi) = .ok case →
    coldCase b m (sharedRecords call.text) case.frames = .ok (state, observations) →
    Validates (call.prepare cache) case →
      (goalHits b m ((m.init (sharedRecords call.text)).2.2.foldl (semanticHit m.goalMapSize)
          clearGoalMap) ::
        (observations.take (cachedDepth (call.prepare cache) case)).map
          FrameObservation.goalHits).IsChain (· ⊆ ·)

end Call

def harnessStep (cache : PrefixCache) : CacheUse b m → PrefixCache
  | .execute call => (call.harness cache).2
  | .clear => cache.clear

/-- The cache after executions of the harness, from an empty one with the given limits. -/
def harnessCache (maxBytes maxEntries : ℕ) (uses : List (CacheUse b m)) : PrefixCache :=
  uses.foldl harnessStep (emptyCache maxBytes maxEntries)

variable {cache : PrefixCache} {floor : ℕ}

/-- The hits in the map when a validation replay starts are those of `init`. -/
theorem goalHits_replayStart (shared : Text) (native : Native m) (h : native.goals = clearGoalMap) :
    goalHits b m (replayStart m shared (afterInit m shared native).goals).goals =
      goalHits b m ((m.init shared).2.2.foldl (semanticHit m.goalMapSize) clearGoalMap) := by
  simp only [afterInit, replayStart, h]
  exact goalHits_foldl_eq_iff.2 (List.Subset.refl _)

/-- The observations of a validation replay of a cold prefix, compared with those of the cold run. -/
theorem replayed_goalHits {shared : Text} {frames : List Frame} {native : Native m} {state : m.State}
    {observations observations' : List FrameObservation} (h : native.goals = clearGoalMap)
    (hcold : coldCase b m shared frames = .ok (state, observations))
    (hrep : replayed b m frames (replayStart m shared (afterInit m shared native).goals) =
      .ok observations') :
    observations = observations' ↔
      (goalHits b m ((m.init shared).2.2.foldl (semanticHit m.goalMapSize) clearGoalMap) ::
        observations.map FrameObservation.goalHits).IsChain (· ⊆ ·) := by
  obtain ⟨hnul, hinit⟩ := init_of_coldCase hcold
  have hframes : coldFrames b m 0 frames 0 m.zeroed
      (replayStart m shared (afterInit m shared native).goals).state = .ok (state, observations) := by
    simpa [coldCase, hnul, hinit, replayStart] using hcold
  have hiff := replayPrefix_goalHits 0 frames 0 m.zeroed m.zeroed [] _ state observations
    observations' hframes hrep
  rw [goalHits_replayStart shared native h] at hiff
  rw [← hiff]
  exact ⟨fun heq => by rw [heq], eq_of_agree (replayed_agree hinit hnul hcold hrep)⟩

namespace Call

variable (call : Call b m)

theorem harness_error {e : ExecError} (h : (call.cleared.run cache).1 = .error e) :
    ∃ cache', call.harness cache = (.error e, PrefixCache.clear cache') := by
  refine ⟨(call.cleared.run cache).2.1, ?_⟩
  rw [harness]
  split
  · rename_i hrun
    rw [hrun] at h
    cases h
  · rename_i hrun
    rw [hrun] at h ⊢
    obtain rfl := Except.error.inj h
    rfl

theorem harness_ok {outcome : ExecOutcome} (h : (call.cleared.run cache).1 = .ok outcome) :
    call.harness cache = (.ok outcome, (call.cleared.run cache).2.1) := by
  rw [harness]
  split
  · rename_i hrun
    rw [hrun] at h ⊢
    obtain rfl := Except.ok.inj h
    rfl
  · rename_i hrun
    rw [hrun] at h
    cases h

theorem cleared_run {case : TestCase} (h : parseTestcase call.text (schema b.abi) = .ok case) :
    call.cleared.run cache = executeCase b m call.order case (sharedRecords call.text)
      (call.prepare cache) call.cleared.native := by
  rw [run, executeWithCache, show call.cleared.text = call.text from rfl, h]
  rfl

/-- **A failing execution** shows nothing and leaves an empty cache. -/
theorem exact_of_error {e : ExecError} (h : (call.cleared.run cache).1 = .error e) :
    call.Exact cache ∧ ∃ floor', Faithful b m (stageRoot b.abi) Eq (call.harness cache).2 floor' := by
  obtain ⟨cache', hharness⟩ := call.harness_error h
  refine ⟨fun outcome hout => ?_, cache'.nextId, ?_⟩
  · rw [hharness] at hout
    cases hout
  · rw [hharness]
    exact faithful_clear cache'

/-- A text that does not run cold has no goals to grow. -/
theorem goalsGrow_of_error {e : ExecError} (h : coldExecute b m call.text = .error e) :
    call.GoalsGrow cache := by
  intro case state observations hparse hcold
  rw [coldExecute, hparse] at h
  simp only at h
  rw [hcold] at h
  cases h

/-- **One execution.**  From a cache whose snapshots show what cold runs show, an execution shows
the goal hits of the cold run exactly when the goals of a validated prefix grow; then it keeps the
snapshots so. -/
theorem exact_iff (h : Faithful b m (stageRoot b.abi) Eq cache floor) :
    (call.Exact cache ↔ call.GoalsGrow cache) ∧
    (call.GoalsGrow cache →
      ∃ floor', Faithful b m (stageRoot b.abi) Eq (call.harness cache).2 floor') := by
  cases hparse : parseTestcase call.text (schema b.abi) with
  | error e =>
    have hrun : (call.cleared.run cache).1 = .error (.parse e) := by
      rw [run, executeWithCache, show call.cleared.text = call.text from rfl, hparse]
    have hcold : coldExecute b m call.text = .error (.parse e) := by rw [coldExecute, hparse]
    obtain ⟨hexact, hkeep⟩ := call.exact_of_error hrun
    exact ⟨iff_of_true hexact (call.goalsGrow_of_error hcold), fun _ => hkeep⟩
  | ok case =>
    have hroot := sharedRecords_eq_stageRoot call hparse
    have hp := h.prepare call
    have hagree : ∀ o o' : FrameObservation, o = o' → o.Agree o' := fun o o' heq => heq ▸ .refl o
    obtain ⟨herr, hok⟩ := executeCase_result (fun _ => rfl) hagree hp call.order call.cleared.native
      hroot
    rw [← call.cleared_run hparse] at herr hok
    have hexec : coldExecute b m call.text = coldCase b m (sharedRecords call.text) case.frames := by
      rw [coldExecute, hparse]
    cases hcold : coldCase b m (sharedRecords call.text) case.frames with
    | error e =>
      obtain ⟨e', hrun⟩ := herr e hcold
      obtain ⟨hexact, hkeep⟩ := call.exact_of_error hrun
      exact ⟨iff_of_true hexact (call.goalsGrow_of_error (hexec.trans hcold)), fun _ => hkeep⟩
    | ok p =>
      rcases p with ⟨state, total⟩
      obtain ⟨outcome, hrun, -, hag, hhits⟩ := hok state total hcold
      have hharness := call.harness_ok hrun
      -- exactness speaks of this outcome and this cold run
      have hexact : call.Exact cache ↔ total = outcome.observations := by
        constructor
        · intro hex
          obtain ⟨state', observations, hcold', hmap⟩ := hex outcome (by rw [hharness])
          rw [hexec, hcold, Except.ok.injEq, Prod.mk.injEq] at hcold'
          obtain ⟨-, rfl⟩ := hcold'
          exact eq_of_agree hag hmap
        · intro heq outcome' hout
          rw [hharness, Except.ok.injEq] at hout
          subst hout
          exact ⟨state, total, hexec.trans hcold, by rw [heq]⟩
      have hgrow : call.GoalsGrow cache ↔ (Validates (call.prepare cache) case →
          (goalHits b m ((m.init (sharedRecords call.text)).2.2.foldl (semanticHit m.goalMapSize)
              clearGoalMap) ::
            (total.take (cachedDepth (call.prepare cache) case)).map
              FrameObservation.goalHits).IsChain (· ⊆ ·)) := by
        constructor
        · exact fun hg => hg case state total hparse hcold
        · intro hg case' state' total' hparse' hcold'
          rw [hparse, Except.ok.injEq] at hparse'
          subst hparse'
          rw [hcold, Except.ok.injEq, Prod.mk.injEq] at hcold'
          obtain ⟨-, rfl⟩ := hcold'
          exact hg
      have htake : ∀ {state' : m.State} {observations : List FrameObservation},
          coldCase b m (sharedRecords call.text)
            (case.frames.take (cachedDepth (call.prepare cache) case)) = .ok (state', observations) →
          total.take (cachedDepth (call.prepare cache) case) = observations :=
        coldCase_take (cachedDepth_le (call.prepare cache) case) hcold
      rw [hexact, hgrow]
      constructor
      · by_cases hval : Validates (call.prepare cache) case
        · rw [if_pos hval] at hhits
          obtain ⟨observations, observations', rest, stateThere, hthere, hrep, htotal, hout⟩ := hhits
          rw [htotal, hout, List.append_left_inj, ← htotal, htake hthere]
          simp only [hval, true_implies]
          exact replayed_goalHits rfl hthere hrep
        · rw [if_neg hval, List.forall₂_eq_eq_eq] at hhits
          exact iff_of_true hhits fun h => absurd h hval
      · intro hchain
        rw [hharness, call.cleared_run hparse]
        refine executeCase_faithful (fun _ => rfl) hagree hp call.order call.cleared.native hroot
          fun hval stateThere observations observations' hthere hrep => ?_
        have := hchain hval
        rw [htake hthere] at this
        rw [List.forall₂_eq_eq_eq]
        exact (replayed_goalHits rfl hthere hrep).2 this

end Call

/-! ## Runs of the harness -/

/-- Every execution of the run has the property, in the cache it finds. -/
def EachExecution (P : PrefixCache → Call b m → Prop) (maxBytes maxEntries : ℕ)
    (uses : List (CacheUse b m)) : Prop :=
  ∀ before call, before ++ [.execute call] <+: uses → P (harnessCache maxBytes maxEntries before) call

theorem eachExecution_concat {P : PrefixCache → Call b m → Prop} {maxBytes maxEntries : ℕ}
    {uses : List (CacheUse b m)} {use : CacheUse b m} :
    EachExecution P maxBytes maxEntries (uses ++ [use]) ↔
      EachExecution P maxBytes maxEntries uses ∧
      ∀ call, use = .execute call → P (harnessCache maxBytes maxEntries uses) call := by
  simp only [EachExecution, List.prefix_concat_iff]
  constructor
  · intro h
    refine ⟨fun before call hpre => h before call (.inr hpre), fun call huse => ?_⟩
    exact h uses call (.inl (by rw [huse]))
  · rintro ⟨h, hlast⟩ before call (heq | hpre)
    · obtain ⟨rfl, huse⟩ := List.append_inj' heq rfl
      exact hlast call (List.singleton_injective huse).symm
    · exact h before call hpre

theorem harnessCache_faithful {maxBytes maxEntries : ℕ} {uses : List (CacheUse b m)}
    (h : EachExecution (fun cache call => call.GoalsGrow cache) maxBytes maxEntries uses) :
    ∃ floor, Faithful b m (stageRoot b.abi) Eq (harnessCache maxBytes maxEntries uses) floor := by
  induction uses using List.reverseRecOn with
  | nil => exact ⟨1, faithful_emptyCache maxBytes maxEntries _⟩
  | append_singleton uses use ih =>
    obtain ⟨hall, hlast⟩ := eachExecution_concat.1 h
    obtain ⟨floor, hf⟩ := ih hall
    rw [harnessCache, List.foldl_append]
    cases use with
    | execute call => exact (call.exact_iff hf).2 (hlast call rfl)
    | clear => exact ⟨_, faithful_clear _⟩

/-- **Goal hits under caching.**  In a run of the harness every execution shows the goal hits of
the cold run of its text if and only if in every execution the goals of a validated prefix grow. -/
theorem eachExecution_exact_iff (maxBytes maxEntries : ℕ) (uses : List (CacheUse b m)) :
    EachExecution (fun cache call => call.Exact cache) maxBytes maxEntries uses ↔
      EachExecution (fun cache call => call.GoalsGrow cache) maxBytes maxEntries uses := by
  induction uses using List.reverseRecOn with
  | nil => simp [EachExecution]
  | append_singleton uses use ih =>
    rw [eachExecution_concat, eachExecution_concat, ih]
    refine and_congr_right fun hall => ?_
    obtain ⟨floor, hf⟩ := harnessCache_faithful hall
    exact forall₂_congr fun call _ => (call.exact_iff hf).1

/-- The cold run of three frames hits the goal in its first frame only. -/
theorem coldExecute_counter : (coldExecute counterBundle counterMachine
      (counterCall 3 31).text).toOption.map (fun r => r.2.map FrameObservation.goalHits) =
    some [[0], [], []] := by
  decide +kernel

/-- After an execution of two frames the next one validates both, and shows the goal in both. -/
theorem harness_counter : ((counterCall 3 31).harness (harnessCache 1000 10
      [.execute (counterCall 2 0)])).1.toOption.map
        (fun o => o.observations.map FrameObservation.goalHits) = some [[0], [0], []] := by
  decide +kernel

theorem not_eachExecution_exact : ¬EachExecution (fun cache call => call.Exact cache) 1000 10
    [.execute (counterCall 2 0), .execute (counterCall 3 31)] := by
  intro h
  obtain ⟨outcome, hout, hshown⟩ := Option.map_eq_some_iff.1 harness_counter
  rw [toOption_eq_some] at hout
  obtain ⟨state, observations, hcold, heq⟩ :=
    h [.execute (counterCall 2 0)] (counterCall 3 31) (List.prefix_refl _) outcome hout
  have hcounter := coldExecute_counter
  rw [hcold] at hcounter
  simp only [Except.toOption, Option.map_some, Option.some.injEq] at hcounter
  rw [hshown, hcounter] at heq
  cases heq

end SemantiST.Engine
