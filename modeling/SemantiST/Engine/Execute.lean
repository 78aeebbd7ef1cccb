import SemantiST.Engine.Bundle
import SemantiST.Engine.PrefixCache
import SemantiST.Lib.Sort

/-!
# Executing a testcase

`execute_with_cache` of `fuzzer/engine/src/v3.rs`.  The native side is a `Machine`: the generated
harness, of which only the calls of the C interface are visible, and the goal map, a global array
that the instrumented program counts its goals in.
-/

namespace SemantiST.Engine

open Lib

/-! ## The goal map -/

/-- One counter for each runtime id below the map's size. -/
abbrev GoalMap := ℕ → ℕ

def clearGoalMap : GoalMap := fun _ => 0

/-- `__semantist_semantic_hit`: a byte that saturates. -/
def semanticHit (size : ℕ) (map : GoalMap) (runtimeId : ℕ) : GoalMap :=
  if runtimeId < size then
    Function.update map runtimeId (if map runtimeId = 255 then 255 else map runtimeId + 1)
  else map

def goalMapHit (size : ℕ) (map : GoalMap) (runtimeId : ℕ) : Bool :=
  runtimeId < size && 0 < map runtimeId

def restoreGoalHit (size : ℕ) (map : GoalMap) (runtimeId : ℕ) : GoalMap :=
  if runtimeId < size then Function.update map runtimeId 1 else map

def restoreGoalHits (size : ℕ) (map : GoalMap) (observations : List FrameObservation) : GoalMap :=
  observations.foldl (fun map o => o.goalHits.foldl (restoreGoalHit size) map) map

/-! ## The machine -/

/-- The native harness.  `init` starts the program over; `parse_frame` reads records into a frame
buffer and the time step, and may write VAR_IN_OUT storage; `step` runs one scan.  `init` and
`step` report a status and the goals they hit.  A checkpoint restores the state it was taken of,
and the records of a frame name every field, so what a buffer held before does not matter. -/
structure Machine (abi : TargetAbi) where
  State : Type
  FrameBuffer : Type
  zeroed : FrameBuffer
  goalMapSize : ℕ
  stateSize : ℕ
  init : Text → ℤ × State × List ℕ
  parseFrame : State → Text → FrameBuffer → ℕ → State × Option (FrameBuffer × ℕ)
  step : State → FrameBuffer → ℕ → ℤ × State × List ℕ
  checkpoint : State → List UInt8
  restore : List UInt8 → State → State
  checkpoint_length : ∀ s, (checkpoint s).length = stateSize
  restore_checkpoint : ∀ s s', restore (checkpoint s) s' = s
  parseFrame_buffer : ∀ s index frame buffer buffer' dt,
    parseFrame s (frameRecords abi index frame) buffer dt =
      parseFrame s (frameRecords abi index frame) buffer' dt

/-- The process: the state of the harness and the goal map. -/
structure Native {abi : TargetAbi} (m : Machine abi) where
  state : m.State
  goals : GoalMap

inductive ExecError where
  | parse (error : FrameError)
  /-- `shared records: …`: a NUL in a C string -/
  | sharedNul
  /-- `semantist_init returned {status}` -/
  | init (status : ℤ)
  /-- `cold prefix init returned {status}` -/
  | coldInit (status : ℤ)
  /-- `frame {index}: …`: a NUL in a C string -/
  | frameNul (index : ℕ)
  /-- `semantist_parse_frame failed at frame {index}` -/
  | parseFrame (index : ℕ)
  /-- `semantist_step returned {status} at frame {index}` -/
  | step (status : ℤ) (index : ℕ)
  deriving DecidableEq

section Execute

variable (b : V3Bundle) (m : Machine b.abi)

/-! ## One frame -/

/-- The goals of the tasks that the map counts. -/
def goalHits (goals : GoalMap) : List ℕ :=
  sortDedup ((b.tasks.filterMap V3Task.runtimeId).filter (goalMapHit m.goalMapSize goals))

def captureFrameObservation (frameIndex logicalTimeNs : ℕ) (native : Native m) :
    FrameObservation where
  frameIndex := frameIndex
  logicalTimeNs := logicalTimeNs
  values := b.tasks.foldl (fun values task =>
    task.stateSlice.foldl (fun values entry =>
      match readStateField b.layout (m.checkpoint native.state) entry with
      | some value => values.insert entry.name value
      | none => values) values) ∅
  goalHits := goalHits b m native.goals

/-- `execute_frame`: the time step of the frame and the buffer it was parsed into. -/
def executeFrame (index : ℕ) (value : Frame) (frame : m.FrameBuffer) (native : Native m) :
    Except ExecError (ℕ × m.FrameBuffer) × Native m :=
  let records := frameRecords b.abi index value
  if nul ∈ records then (.error (.frameNul index), native)
  else
    match m.parseFrame native.state records frame b.scanPeriodNs with
    | (state, none) => (.error (.parseFrame index), { native with state := state })
    | (state, some (frame, dt)) =>
      let (status, state, hits) := m.step state frame dt
      let native : Native m := ⟨state, hits.foldl (semanticHit m.goalMapSize) native.goals⟩
      if status ≠ 0 then (.error (.step status index), native) else (.ok (dt, frame), native)

/-! ## The cached prefix -/

/-- The deepest proper prefix with a snapshot, 0 when there is none: the first hit of the loop
that runs down from the given depth. -/
def findStart (cache : PrefixCache) (ids : List ℕ) : ℕ → ℕ
  | 0 => 0
  | depth + 1 =>
    if ids[depth]?.any fun id => (cache.snapshots.lookup id).isSome then depth + 1
    else findStart cache ids depth

/-- The validation replay of the cached prefix.  The goal map is not cleared between its frames. -/
def replayPrefix : ℕ → List Frame → ℕ → m.FrameBuffer → List FrameObservation → Native m →
    Except ExecError (List FrameObservation) × Native m
  | _, [], _, _, observations, native => (.ok observations, native)
  | index, value :: frames, coldTime, frame, observations, native =>
    match executeFrame b m index value frame native with
    | (.error e, native) => (.error e, native)
    | (.ok (dt, frame), native) =>
      let coldTime := saturatingAdd coldTime dt
      replayPrefix (index + 1) frames coldTime frame
        (observations ++ [captureFrameObservation b m index coldTime native]) native

inductive Provenance where
  | cold | snapshot | coldValidation | coldPrefixFallback
  deriving DecidableEq

/-- Where the execution stands before the frames that are left to run. -/
structure Resumed where
  prefixIds : List ℕ
  start : ℕ
  observations : List FrameObservation
  coldPrefixReplayed : Bool
  provenance : Provenance

/-- The replay that checks a restored prefix: the state it leads to is compared with the restored
one, and the cache is emptied if they differ. -/
def validatePrefix (case : TestCase) (shared : Text) (start : ℕ) (ids : List ℕ)
    (cache : PrefixCache) (native : Native m) :
    Except ExecError Resumed × PrefixCache × Native m :=
  let cache := { cache with validations := cache.validations + 1 }
  let restoredState := m.checkpoint native.state
  let (coldInit, state, hits) := m.init shared
  let native : Native m := ⟨state, hits.foldl (semanticHit m.goalMapSize) native.goals⟩
  if coldInit ≠ 0 then (.error (.coldInit coldInit), cache, native)
  else
    match replayPrefix b m 0 (case.frames.take start) 0 m.zeroed [] native with
    | (.error e, native) => (.error e, cache, native)
    | (.ok observations, native) =>
      let cache := { cache with savedScans := cache.savedScans - start }
      if m.checkpoint native.state ≠ restoredState then
        let cache := { cache with invalidations := cache.invalidations + 1 }.clear
        let (ids, cache) := cache.prefixIds case
        (.ok ⟨ids, start, observations, true, .coldPrefixFallback⟩, cache, native)
      else (.ok ⟨ids, start, observations, true, .coldValidation⟩, cache, native)

/-- The branch of a cached prefix: restore its snapshot, and on every 32nd hit validate it. -/
def resumePrefix (case : TestCase) (shared : Text) (start : ℕ) (ids : List ℕ)
    (cache : PrefixCache) (native : Native m) :
    Except ExecError Resumed × PrefixCache × Native m :=
  if start = 0 then (.ok ⟨ids, 0, [], false, .cold⟩, cache, native)
  else
    let id := ids.getD (start - 1) 0
    let cache := { cache with restoreAttempts := cache.restoreAttempts + 1 }
    match cache.restore m.stateSize id with
    | (none, cache) => (.ok ⟨ids, 0, [], false, .cold⟩, cache, native)
    | (some (bytes, _), cache) =>
      let native := { native with state := m.restore bytes native.state }
      let observations := ((cache.snapshots.lookup id).map Snapshot.observations).getD []
      let cache := { cache with savedScans := cache.savedScans + start }
      if cache.hits % 32 = 0 then validatePrefix b m case shared start ids cache native
      else
        (.ok ⟨ids, start, observations, false, .snapshot⟩, cache,
          { native with goals := restoreGoalHits m.goalMapSize native.goals observations })

/-! ## The whole testcase -/

/-- The frames from `index` on; `order` is the iteration order of the store at each depth. -/
def runSuffix (order : ℕ → IterOrder) (ids : List ℕ) (frameCount : ℕ) :
    ℕ → List Frame → ℕ → m.FrameBuffer → List FrameObservation → PrefixCache → Native m →
    Except ExecError (List FrameObservation) × PrefixCache × Native m
  | _, [], _, _, observations, cache, native => (.ok observations, cache, native)
  | index, value :: frames, logicalTime, frame, observations, cache, native =>
    match executeFrame b m index value frame { native with goals := clearGoalMap } with
    | (.error e, native) => (.error e, cache, native)
    | (.ok (dt, frame), native) =>
      let logicalTime := saturatingAdd logicalTime dt
      let observations := observations ++ [captureFrameObservation b m index logicalTime native]
      let depth := index + 1
      let cache :=
        if cache.enabled ∧ (depth % 16 = 0 ∨ depth = frameCount) then
          cache.store (order depth) (m.checkpoint native.state) (ids.getD (depth - 1) 0) depth
            observations
        else cache
      runSuffix order ids frameCount (index + 1) frames logicalTime frame observations cache native

structure ExecOutcome where
  frames : ℕ
  suffix : ℕ
  prefixDepth : ℕ
  restored : Bool
  scans : ℕ
  provenance : Provenance
  observations : List FrameObservation

/-- What happens to a testcase once it is parsed. -/
def executeCase (order : ℕ → IterOrder) (case : TestCase) (shared : Text) (cache : PrefixCache)
    (native : Native m) : Except ExecError ExecOutcome × PrefixCache × Native m :=
  let (ids, cache) := cache.prefixIds case
  let frameCount := case.frames.length
  let start := if cache.enabled ∧ 1 < frameCount then findStart cache ids (frameCount - 1) else 0
  if nul ∈ shared then (.error .sharedNul, cache, native)
  else
    let (status, state, hits) := m.init shared
    let native : Native m := ⟨state, hits.foldl (semanticHit m.goalMapSize) native.goals⟩
    if status ≠ 0 then (.error (.init status), cache, native)
    else
      match resumePrefix b m case shared start ids cache native with
      | (.error e, cache, native) => (.error e, cache, native)
      | (.ok r, cache, native) =>
        let time := (r.observations.getLast?.map FrameObservation.logicalTimeNs).getD 0
        match runSuffix b m order r.prefixIds frameCount r.start (case.frames.drop r.start) time
          m.zeroed r.observations cache native with
        | (.error e, cache, native) => (.error e, cache, native)
        | (.ok observations, cache, native) =>
          (.ok {
            frames := frameCount
            suffix := frameCount - r.start
            prefixDepth := r.start
            restored := 0 < r.start && !r.coldPrefixReplayed
            scans := if r.coldPrefixReplayed then frameCount else frameCount - r.start
            provenance := r.provenance
            observations := observations }, cache,
            { native with goals := restoreGoalHits m.goalMapSize clearGoalMap observations })

/-- Execute a canonical testcase from the longest cached prefix. -/
def executeWithCache (order : ℕ → IterOrder) (text : Text) (cache : PrefixCache)
    (native : Native m) : Except ExecError ExecOutcome × PrefixCache × Native m :=
  match parseTestcase text (schema b.abi) with
  | .error e => (.error (.parse e), cache, native)
  | .ok case => executeCase b m order case (sharedRecords text) cache native

/-! ## Cold execution -/

/-- The frames from `index` on, each with an empty goal map and without any cache. -/
def coldFrames : ℕ → List Frame → ℕ → m.FrameBuffer → m.State →
    Except ExecError (m.State × List FrameObservation)
  | _, [], _, _, state => .ok (state, [])
  | index, value :: frames, time, frame, state =>
    match executeFrame b m index value frame ⟨state, clearGoalMap⟩ with
    | (.error e, _) => .error e
    | (.ok (dt, frame), native) =>
      let time := saturatingAdd time dt
      (coldFrames (index + 1) frames time frame native.state).map fun r =>
        (r.1, captureFrameObservation b m index time native :: r.2)

/-- `init` and the frames of a parsed testcase on a fresh machine. -/
def coldCase (shared : Text) (frames : List Frame) :
    Except ExecError (m.State × List FrameObservation) :=
  if nul ∈ shared then .error .sharedNul
  else
    let (status, state, _) := m.init shared
    if status ≠ 0 then .error (.init status) else coldFrames b m 0 frames 0 m.zeroed state

/-- **The cold execution of a text**: the native state after it and what each frame shows. -/
def coldExecute (text : Text) : Except ExecError (m.State × List FrameObservation) :=
  match parseTestcase text (schema b.abi) with
  | .error e => .error (.parse e)
  | .ok case => coldCase b m (sharedRecords text) case.frames

end Execute

end SemantiST.Engine
