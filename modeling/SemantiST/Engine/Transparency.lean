import SemantiST.Engine.CachedRuns
import SemantiST.Engine.Serialize

/-!
# The cache is transparent

Any sequence of executions of the stage's texts, with any settings of the cache between them: an
execution leaves the native state of the cold run and shows what the cold run shows, but for the
goal hits, which are compared in `GoalHits`.
-/

namespace SemantiST.Engine

open Lib

variable {b : V3Bundle} {m : Machine b.abi}

/-! ## Sequences of executions -/

/-- One call of `execute_with_cache`: the input whose text is executed, the iteration orders of
the hash map, what the public fields of the cache hold and the native side it finds. -/
structure Call (b : V3Bundle) (m : Machine b.abi) where
  input : V3Input b.abi
  order : ℕ → IterOrder
  hits : ℕ
  enabled : Bool
  native : Native m

namespace Call

variable (call : Call b m)

def text : Text := serialize b.abi call.input.frames call.input.shared

/-- The cache with its public fields set. -/
def prepare (cache : PrefixCache) : PrefixCache :=
  { cache with hits := call.hits, enabled := call.enabled }

def run (cache : PrefixCache) : Except ExecError ExecOutcome × PrefixCache × Native m :=
  executeWithCache b m call.order call.text (call.prepare cache) call.native

end Call

/-- What happens to a cache between two executions. -/
inductive CacheUse (b : V3Bundle) (m : Machine b.abi) where
  | execute (call : Call b m)
  | clear

def CacheUse.apply (cache : PrefixCache) : CacheUse b m → PrefixCache
  | .execute call => (call.run cache).2.1
  | .clear => cache.clear

/-- An empty cache with the given limits. -/
def emptyCache (maxBytes maxEntries : ℕ) : PrefixCache :=
  { maxBytes := maxBytes, maxEntries := maxEntries }

def cacheAfter (maxBytes maxEntries : ℕ) (uses : List (CacheUse b m)) : PrefixCache :=
  uses.foldl CacheUse.apply (emptyCache maxBytes maxEntries)

/-! ## One call -/

/-- The records `init` is given for the texts of inputs with this key. -/
def stageRoot (abi : TargetAbi) (r : Text × Values) : Text :=
  ['\n'].intercalate ((sharedLines abi r.2).filter isSharedLine)

theorem sharedRecords_eq_stageRoot (call : Call b m) {case : TestCase}
    (h : parseTestcase call.text (schema b.abi) = .ok case) :
    sharedRecords call.text = stageRoot b.abi (case.initProfile, case.shared) := by
  rw [stageRoot, (call.input.parse_serialize h).2]
  exact call.input.sharedRecords_serialize

variable {R : FrameObservation → FrameObservation → Prop} {cache : PrefixCache} {floor : ℕ}

theorem Faithful.prepare {root : Text × Values → Text} (h : Faithful b m root R cache floor)
    (call : Call b m) : Faithful b m root R (call.prepare cache) floor :=
  h.congr rfl rfl

theorem faithful_emptyCache (maxBytes maxEntries : ℕ) (root : Text × Values → Text) :
    Faithful b m root R (emptyCache maxBytes maxEntries) 1 :=
  ⟨PathTable.wf_empty (t := (emptyCache maxBytes maxEntries).table) rfl rfl,
    fun id snapshot h => by simp [emptyCache] at h⟩

/-- A replay shows what the cold run shows, but for goal hits. -/
theorem replayed_agree {shared : Text} {frames : List Frame} {goals : GoalMap} {state : m.State}
    {observations observations' : List FrameObservation} (hinit : (m.init shared).1 = 0)
    (hnul : nul ∉ shared) (hcold : coldCase b m shared frames = .ok (state, observations))
    (hrep : replayed b m frames (replayStart m shared goals) = .ok observations') :
    List.Forall₂ FrameObservation.Agree observations observations' := by
  have hframes : coldFrames b m 0 frames 0 m.zeroed (replayStart m shared goals).state =
      .ok (state, observations) := by
    simpa [coldCase, hnul, hinit, replayStart] using hcold
  obtain ⟨observations'', goals', hrun, hagree⟩ := replayPrefix_spec 0 frames 0 m.zeroed m.zeroed []
    (replayStart m shared goals) state observations hframes
  rw [replayed, hrun] at hrep
  simp only [List.nil_append, Except.ok.injEq] at hrep
  rwa [← hrep]

/-- The status of `init` is zero where a cold run succeeds. -/
theorem init_of_coldCase {shared : Text} {frames : List Frame} {state : m.State}
    {observations : List FrameObservation}
    (h : coldCase b m shared frames = .ok (state, observations)) :
    nul ∉ shared ∧ (m.init shared).1 = 0 := by
  unfold coldCase at h
  split at h
  · cases h
  · rename_i hnul
    simp only at h
    split at h
    · cases h
    · rename_i hinit
      exact ⟨hnul, not_not.1 hinit⟩

/-- **A call keeps the cache faithful**, goal hits aside. -/
theorem Call.faithful (call : Call b m)
    (h : Faithful b m (stageRoot b.abi) FrameObservation.Agree cache floor) :
    ∃ floor', Faithful b m (stageRoot b.abi) FrameObservation.Agree (call.run cache).2.1 floor' := by
  unfold Call.run executeWithCache
  cases hparse : parseTestcase call.text (schema b.abi) with
  | error e => exact ⟨floor, h.prepare call⟩
  | ok case =>
    refine executeCase_faithful .refl (fun _ _ h => h) (h.prepare call) call.order call.native
      (sharedRecords_eq_stageRoot call hparse) fun _ state observations observations' hcold hrep => ?_
    obtain ⟨hnul, hinit⟩ := init_of_coldCase hcold
    exact replayed_agree hinit hnul hcold hrep

theorem cacheAfter_faithful (maxBytes maxEntries : ℕ) (uses : List (CacheUse b m)) :
    ∃ floor, Faithful b m (stageRoot b.abi) FrameObservation.Agree
      (cacheAfter maxBytes maxEntries uses) floor := by
  refine List.foldlRecOn (motive := fun cache : PrefixCache => ∃ floor,
    Faithful b m (stageRoot b.abi) FrameObservation.Agree cache floor) uses CacheUse.apply
    ⟨1, faithful_emptyCache maxBytes maxEntries _⟩ ?_
  rintro cache ⟨floor, h⟩ use -
  cases use with
  | execute call => exact call.faithful h
  | clear => exact ⟨_, faithful_clear cache⟩

/-- **Prefix-cache transparency.**  After any executions and clears, with any limits, an execution
that succeeds leaves the native state of the cold run of its text, and its observations have the
index, the logical time and the values of those of the cold run. -/
theorem run_transparent (maxBytes maxEntries : ℕ) (uses : List (CacheUse b m)) (call : Call b m)
    (outcome : ExecOutcome) (h : (call.run (cacheAfter maxBytes maxEntries uses)).1 = .ok outcome) :
    ∃ observations, coldExecute b m call.text =
        .ok ((call.run (cacheAfter maxBytes maxEntries uses)).2.2.state, observations) ∧
      List.Forall₂ FrameObservation.Agree observations outcome.observations := by
  obtain ⟨floor, hf⟩ := cacheAfter_faithful (b := b) (m := m) maxBytes maxEntries uses
  unfold Call.run executeWithCache at h ⊢
  unfold coldExecute
  cases hparse : parseTestcase call.text (schema b.abi) with
  | error e =>
    rw [hparse] at h
    cases h
  | ok case =>
    rw [hparse] at h
    simp only at h ⊢
    obtain ⟨herr, hok⟩ := executeCase_result .refl (fun _ _ h => h) (hf.prepare call) call.order
      call.native (sharedRecords_eq_stageRoot call hparse)
    cases hcold : coldCase b m (sharedRecords call.text) case.frames with
    | error e =>
      obtain ⟨e', he'⟩ := herr e hcold
      rw [he'] at h
      cases h
    | ok p =>
      rcases p with ⟨state, total⟩
      obtain ⟨outcome', hout, hstate, hagree, -⟩ := hok state total hcold
      rw [hout, Except.ok.injEq] at h
      subst h
      exact ⟨total, by rw [hstate], hagree⟩

/-! ## A machine that counts its scans -/

def counterField : Param where
  name := "X".toList
  spec := .scalar .int
  blockKind := .varInput

def counterAbi : TargetAbi where
  kind := .functionBlock
  params := [counterField]
  stateFields := [counterField]
  fieldName := by decide
  oneName := by decide
  nodup_params := by decide
  nodup_stateFields := by decide
  members := by decide

/-- The program under test hits goal 0 in its first scan. -/
def counterMachine : Machine counterAbi where
  State := UInt8
  FrameBuffer := Unit
  zeroed := ()
  goalMapSize := 1
  stateSize := 1
  init _ := (0, 0, [])
  parseFrame state _ _ dt := (state, some ((), dt))
  step state _ _ := (0, state + 1, if state = 0 then [0] else [])
  checkpoint state := [state]
  restore bytes _ := bytes.headD 0
  checkpoint_length _ := rfl
  restore_checkpoint _ _ := rfl
  parseFrame_buffer _ _ _ _ _ _ := rfl

def counterBundle : V3Bundle where
  abi := counterAbi
  layout := ⟨[]⟩
  tasks := [⟨[], some 0⟩]
  scanPeriodNs := 1

theorem plainFrame (index : ℕ) : AllPlain (Frame.values ⟨index, ∅, none⟩) := by
  intro k v h
  simp at h

/-- `count` frames with default values. -/
def counterInput (count : ℕ) : V3Input counterAbi where
  frames := (List.range count).map fun index => ⟨index, ∅, none⟩
  shared := ∅
  plainName k hk := by simp at hk
  canonical k hk := by simp at hk
  plainShared k v hk := by simp at hk
  plainFrames frame hframe := by
    obtain ⟨index, -, rfl⟩ := List.mem_map.1 hframe
    exact plainFrame index

def counterCall (count hits : ℕ) : Call counterBundle counterMachine where
  input := counterInput count
  order := default
  hits := hits
  enabled := true
  native := ⟨(0 : UInt8), clearGoalMap⟩

theorem run_counter : ((counterCall 3 31).run (cacheAfter 1000 10
    [.execute (counterCall 2 0)])).1.toOption.map ExecOutcome.prefixDepth = some 2 := by
  decide +kernel

theorem run_transparent_counter : ∃ outcome observations,
    ((counterCall 3 31).run (cacheAfter 1000 10 [.execute (counterCall 2 0)])).1 = .ok outcome ∧
    outcome.prefixDepth = 2 ∧
    coldExecute counterBundle counterMachine (counterCall 3 31).text = .ok
      (((counterCall 3 31).run (cacheAfter 1000 10 [.execute (counterCall 2 0)])).2.2.state,
        observations) ∧
    List.Forall₂ FrameObservation.Agree observations outcome.observations := by
  obtain ⟨outcome, hrun, hdepth⟩ := Option.map_eq_some_iff.1 run_counter
  rw [toOption_eq_some] at hrun
  obtain ⟨observations, hcold, hagree⟩ := run_transparent 1000 10 _ (counterCall 3 31) outcome hrun
  exact ⟨outcome, observations, hrun, hdepth, hcold, hagree⟩

end SemantiST.Engine
