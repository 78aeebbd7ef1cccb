import SemantiST.Engine.CacheRuns
import SemantiST.Engine.Execute

/-!
# Cold runs and cached runs

What the pieces of `execute_with_cache` do, compared with the cold execution of the same frames.
Observations are compared through a relation `R`, so that the same lemmas serve results that look
at the goal hits and results that do not.
-/

namespace SemantiST.Engine

open Lib

/-- The observations agree in all but their goal hits. -/
structure FrameObservation.Agree (o o' : FrameObservation) : Prop where
  frameIndex : o.frameIndex = o'.frameIndex
  logicalTimeNs : o.logicalTimeNs = o'.logicalTimeNs
  values : o.values = o'.values

theorem FrameObservation.Agree.refl (o : FrameObservation) : o.Agree o := ⟨rfl, rfl, rfl⟩

/-- The logical time after the given observations, which started at `time`. -/
def lastTime (time : ℕ) (observations : List FrameObservation) : ℕ :=
  (observations.getLast?.map FrameObservation.logicalTimeNs).getD time

@[simp] theorem lastTime_nil (time : ℕ) : lastTime time [] = time := rfl

theorem lastTime_cons (time : ℕ) (o : FrameObservation) (observations : List FrameObservation) :
    lastTime time (o :: observations) = lastTime o.logicalTimeNs observations := by
  cases observations with
  | nil => rfl
  | cons o' l => simp [lastTime, List.getLast?_cons]

theorem lastTime_concat (time : ℕ) (o : FrameObservation) (observations : List FrameObservation) :
    lastTime time (observations ++ [o]) = o.logicalTimeNs := by
  simp [lastTime]

theorem lastTime_agree {observations observations' : List FrameObservation} (time : ℕ)
    (h : List.Forall₂ FrameObservation.Agree observations observations') :
    lastTime time observations = lastTime time observations' := by
  induction h generalizing time with
  | nil => rfl
  | cons ho _ ih => rw [lastTime_cons, lastTime_cons, ho.logicalTimeNs, ih]

variable {b : V3Bundle} {m : Machine b.abi}

/-! ## One frame -/

/-- The outcome of a frame: its result, the state after it and the goals it hits do not depend on
the buffer or on the goal map. -/
theorem executeFrame_spec (index : ℕ) (value : Frame) (state : m.State) :
    ∃ result state', ∃ hits : List ℕ, ∀ frame goals, executeFrame b m index value frame ⟨state, goals⟩ =
      (result, ⟨state', hits.foldl (semanticHit m.goalMapSize) goals⟩) := by
  by_cases hnul : nul ∈ frameRecords b.abi index value
  · exact ⟨_, state, [], fun frame goals => if_pos hnul⟩
  rcases hp : m.parseFrame state (frameRecords b.abi index value) m.zeroed b.scanPeriodNs with
    ⟨state', _ | ⟨frame', dt⟩⟩
  · refine ⟨.error (.parseFrame index), state', [], fun frame goals => ?_⟩
    simp only [executeFrame, if_neg hnul]
    rw [m.parseFrame_buffer state index value frame m.zeroed, hp]
    rfl
  · rcases hs : m.step state' frame' dt with ⟨status, state'', hits⟩
    refine ⟨if status ≠ 0 then .error (.step status index) else .ok (dt, frame'), state'', hits,
      fun frame goals => ?_⟩
    simp only [executeFrame, if_neg hnul]
    rw [m.parseFrame_buffer state index value frame m.zeroed, hp]
    simp only [hs]
    split <;> rfl

/-- What a frame shows, but for its goal hits, is read off the native state. -/
theorem capture_agree (index time : ℕ) {native native' : Native m} (h : native.state = native'.state) :
    (captureFrameObservation b m index time native).Agree
      (captureFrameObservation b m index time native') :=
  ⟨rfl, rfl, by simp only [captureFrameObservation, h]⟩

/-! ## Cold frames -/

theorem coldFrames_buffer (index : ℕ) (frames : List Frame) (time : ℕ) (frame frame' : m.FrameBuffer)
    (state : m.State) :
    coldFrames b m index frames time frame state = coldFrames b m index frames time frame' state := by
  cases frames with
  | nil => rfl
  | cons value frames =>
    obtain ⟨result, state', hits, h⟩ := executeFrame_spec (m := m) index value state
    simp only [coldFrames, h]

/-- **Cold frames run one after the other.** -/
theorem coldFrames_append (index : ℕ) (frames frames' : List Frame) (time : ℕ)
    (frame : m.FrameBuffer) (state : m.State) :
    coldFrames b m index (frames ++ frames') time frame state =
      (coldFrames b m index frames time frame state).bind fun r =>
        (coldFrames b m (index + frames.length) frames' (lastTime time r.2) m.zeroed r.1).map
          fun r' => (r'.1, r.2 ++ r'.2) := by
  induction frames generalizing index time frame state with
  | nil =>
    simp only [List.nil_append, coldFrames, Except.bind, lastTime_nil, List.length_nil,
      Nat.add_zero]
    rw [coldFrames_buffer index frames' time frame m.zeroed]
    cases coldFrames b m index frames' time m.zeroed state <;> rfl
  | cons value frames ih =>
    simp only [List.cons_append, coldFrames, List.length_cons]
    rcases executeFrame b m index value frame ⟨state, clearGoalMap⟩ with ⟨_ | ⟨dt, frame'⟩, native⟩
    · rfl
    · simp only
      rw [ih, show index + 1 + frames.length = index + (frames.length + 1) by omega]
      cases coldFrames b m (index + 1) frames (saturatingAdd time dt) frame' native.state with
      | error e => rfl
      | ok r =>
        simp only [Except.bind, Except.map, lastTime_cons]
        rw [show (captureFrameObservation b m index (saturatingAdd time dt) native).logicalTimeNs =
          saturatingAdd time dt from rfl]
        cases coldFrames b m (index + (frames.length + 1)) frames'
          (lastTime (saturatingAdd time dt) r.2) m.zeroed r.1 <;> rfl

theorem coldFrames_length {index : ℕ} {frames : List Frame} {time : ℕ} {frame : m.FrameBuffer}
    {state state' : m.State} {observations : List FrameObservation}
    (h : coldFrames b m index frames time frame state = .ok (state', observations)) :
    observations.length = frames.length := by
  induction frames generalizing index time frame state state' observations with
  | nil =>
    simp only [coldFrames, Except.ok.injEq, Prod.mk.injEq] at h
    simp [← h.2]
  | cons value frames ih =>
    simp only [coldFrames] at h
    rcases hx : executeFrame b m index value frame ⟨state, clearGoalMap⟩ with
      ⟨_ | ⟨dt, frame'⟩, native⟩
    · simp [hx] at h
    · simp only [hx] at h
      cases hr : coldFrames b m (index + 1) frames (saturatingAdd time dt) frame' native.state with
      | error e => simp [hr, Except.map] at h
      | ok r =>
        rcases r with ⟨state'', observations'⟩
        simp only [hr, Except.map, Except.ok.injEq, Prod.mk.injEq] at h
        rw [← h.2, List.length_cons, List.length_cons, ih hr]

/-- The cold run of more frames continues the cold run of the first ones. -/
theorem coldCase_append (shared : Text) (frames frames' : List Frame) :
    coldCase b m shared (frames ++ frames') =
      (coldCase b m shared frames).bind fun r =>
        (coldFrames b m frames.length frames' (lastTime 0 r.2) m.zeroed r.1).map
          fun r' => (r'.1, r.2 ++ r'.2) := by
  unfold coldCase
  split
  · rfl
  · rcases m.init shared with ⟨status, state, hits⟩
    simp only
    split
    · rfl
    · rw [coldFrames_append, Nat.zero_add]

theorem coldCase_length {shared : Text} {frames : List Frame} {state : m.State}
    {observations : List FrameObservation}
    (h : coldCase b m shared frames = .ok (state, observations)) :
    observations.length = frames.length := by
  unfold coldCase at h
  split at h
  · cases h
  · simp only at h
    split at h
    · cases h
    · exact coldFrames_length h

/-- The first observations of a cold run are those of the cold run of the first frames. -/
theorem coldCase_take {shared : Text} {frames : List Frame} {state state' : m.State}
    {total observations : List FrameObservation} {n : ℕ} (hn : n ≤ frames.length)
    (h : coldCase b m shared frames = .ok (state, total))
    (h' : coldCase b m shared (frames.take n) = .ok (state', observations)) :
    total.take n = observations := by
  have hlen : observations.length = n := by rw [coldCase_length h', List.length_take]; omega
  rw [← List.take_append_drop n frames, coldCase_append, h'] at h
  simp only [Except.bind] at h
  cases hr : coldFrames b m (frames.take n).length (frames.drop n) (lastTime 0 observations) m.zeroed
    state' with
  | error e =>
    rw [hr] at h
    cases h
  | ok r =>
    simp only [hr, Except.map, Except.ok.injEq, Prod.mk.injEq] at h
    rw [← h.2]
    exact List.take_left' hlen

end SemantiST.Engine
