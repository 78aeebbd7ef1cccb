import SemantiST.Engine.ColdRuns

/-!
# Cached executions

The invariant of a cache between executions (`Faithful`): a snapshot holds the state and the
observations that a cold run of its prefix leads to, where the records `init` is given are a
function `root` of the key under which the tables file a testcase.  Under it an execution from
the cache does what the cold run does, frame by frame.
-/

namespace SemantiST.Engine

open Lib

section Faithful

variable (b : V3Bundle) (m : Machine b.abi) (root : Text × Values → Text)
  (R : FrameObservation → FrameObservation → Prop)

/-- Every snapshot is what a cold run of the prefix of its identity leads to, with observations
that `R` relates to those of that run. -/
structure Faithful (cache : PrefixCache) (floor : ℕ) : Prop where
  wf : cache.table.WF floor
  snapshot : ∀ id snapshot, cache.snapshots.lookup id = some snapshot →
    ∃ r frames state observations, cache.table.Denotes id r frames ∧
      coldCase b m (root r) frames = .ok (state, observations) ∧
      snapshot.state = m.checkpoint state ∧ List.Forall₂ R observations snapshot.observations

/-- The identities `ids` stand for the prefixes of `frames`, one after the other. -/
structure Positions (t : PathTable (Text × Values) Frame) (ids : List ℕ) (r : Text × Values)
    (frames : List Frame) : Prop where
  length : ids.length = frames.length
  denotes : ∀ k id, ids[k]? = some id → t.Denotes id r (frames.take (k + 1))

end Faithful

variable {b : V3Bundle} {m : Machine b.abi} {root : Text × Values → Text}
  {R : FrameObservation → FrameObservation → Prop} {cache cache' : PrefixCache} {floor : ℕ}

theorem Positions.denotes_getD {t : PathTable (Text × Values) Frame} {ids : List ℕ}
    {r : Text × Values} {before frames : List Frame} {value : Frame}
    {all : List Frame} (h : Positions t ids r all) (hall : all = (before ++ [value]) ++ frames) :
    t.Denotes (ids.getD ((before ++ [value]).length - 1) 0) r (before ++ [value]) := by
  have hlt : (before ++ [value]).length - 1 < ids.length := by
    rw [h.length, hall]
    simp only [List.length_append, List.length_singleton]
    omega
  have := h.denotes _ _ (List.getElem?_eq_getElem hlt)
  rw [List.getD_eq_getElem?_getD, List.getElem?_eq_getElem hlt, Option.getD_some]
  rwa [hall, show (before ++ [value]).length - 1 + 1 = (before ++ [value]).length by simp,
    List.take_left' rfl] at this

/-! ## Operations on a faithful cache -/

theorem Faithful.congr (h : Faithful b m root R cache floor) (ht : cache'.table = cache.table)
    (hs : cache'.snapshots = cache.snapshots) : Faithful b m root R cache' floor where
  wf := by rw [ht]; exact h.wf
  snapshot := by rw [ht, hs]; exact h.snapshot

theorem faithful_clear (cache : PrefixCache) : Faithful b m root R cache.clear cache.nextId where
  wf := PathTable.wf_empty (t := cache.clear.table) rfl rfl
  snapshot id snapshot h := by simp [PrefixCache.clear] at h

theorem Faithful.prefixIds (h : Faithful b m root R cache floor) (case : TestCase) :
    (∃ floor', Faithful b m root R (cache.prefixIds case).2 floor') ∧
    Positions (cache.prefixIds case).2.table (cache.prefixIds case).1
      (case.initProfile, case.shared) case.frames := by
  have hfresh : ∃ floor', Faithful b m root R cache.fresh floor' := by
    unfold PrefixCache.fresh
    split
    · exact ⟨_, faithful_clear cache⟩
    · exact ⟨_, h⟩
  obtain ⟨floor', hf⟩ := hfresh
  obtain ⟨honly, hwf, hext, hlen, hden⟩ := PrefixCache.prefixIds_spec cache case hf.wf
  refine ⟨⟨floor', hwf, ?_⟩, hlen, hden⟩
  intro id snapshot hl
  rw [honly] at hl
  obtain ⟨r, frames, state, observations, hid, hrest⟩ := hf.snapshot id snapshot hl
  exact ⟨r, frames, state, observations, hid.mono hext, hrest⟩

/-- Dropping snapshots. -/
theorem Faithful.shrunk (h : Faithful b m root R cache floor) (hs : cache.Shrunk cache') :
    Faithful b m root R cache' floor := by
  have ht : cache'.table = cache.table := by rw [hs.rest]; rfl
  refine ⟨by rw [ht]; exact h.wf, fun id snapshot hl => ?_⟩
  rw [ht]
  exact h.snapshot id snapshot (hs.lookup id snapshot hl)

/-- Filing a snapshot that is what a cold run leads to. -/
theorem Faithful.insert (h : Faithful b m root R cache floor) {id : ℕ} (snapshot : Snapshot)
    {r : Text × Values} {frames : List Frame} {state : m.State}
    {observations : List FrameObservation} (hid : cache.table.Denotes id r frames)
    (hcold : coldCase b m (root r) frames = .ok (state, observations))
    (hstate : snapshot.state = m.checkpoint state)
    (hobs : List.Forall₂ R observations snapshot.observations)
    (hs : cache'.snapshots = cache.snapshots.insert id snapshot)
    (ht : cache'.table = cache.table) : Faithful b m root R cache' floor := by
  refine ⟨by rw [ht]; exact h.wf, fun i s hl => ?_⟩
  rw [ht]
  rw [hs] at hl
  rcases PrefixCache.lookup_insert_cases hl with ⟨rfl, rfl⟩ | ⟨-, hl⟩
  · exact ⟨r, frames, state, observations, hid, hcold, hstate, hobs⟩
  · exact h.snapshot i s hl

theorem Faithful.store (h : Faithful b m root R cache floor) (order : IterOrder) (id depth : ℕ)
    {r : Text × Values} {frames : List Frame} {state : m.State}
    {observations observations' : List FrameObservation} (hid : cache.table.Denotes id r frames)
    (hcold : coldCase b m (root r) frames = .ok (state, observations))
    (hobs : List.Forall₂ R observations observations') :
    Faithful b m root R (cache.store order (m.checkpoint state) id depth observations') floor := by
  rcases PrefixCache.store_cases cache order (m.checkpoint state) id depth observations' with
    heq | ⟨existing, hl, heq⟩ | ⟨-, -, -, -, roomy, hroom, heq⟩ <;> rw [heq]
  · exact h
  · obtain ⟨r', frames', state', obs', hid', hcold', hstate', hobs'⟩ := h.snapshot id existing hl
    exact h.insert { existing with saves := existing.saves + 1 } hid' hcold' hstate'
      hobs' rfl rfl
  · have hs := (PrefixCache.evict_shrunk cache order).trans
      (PrefixCache.makeRoom_shrunk (cache.evict order) order
        ((m.checkpoint state).length + observationBytes observations'))
    rw [← hroom] at hs
    have ht : roomy.table = cache.table := by rw [hs.rest]; rfl
    exact (h.shrunk hs).insert _ (by rw [ht]; exact hid) hcold rfl hobs rfl rfl

/-- Restoring a filed snapshot of a faithful cache: the state and the observations are those of the
cold run, and they stay filed. -/
theorem Faithful.restore (h : Faithful b m root R cache floor) {id : ℕ} {snapshot : Snapshot}
    (hl : cache.snapshots.lookup id = some snapshot) :
    ∃ depth cache', cache.restore m.stateSize id = (some (snapshot.state, depth), cache') ∧
      Faithful b m root R cache' floor ∧ cache'.table = cache.table ∧
      cache'.hits = cache.hits + 1 ∧
      (cache'.snapshots.lookup id).map Snapshot.observations = some snapshot.observations := by
  obtain ⟨r, frames, state, observations, hid, hcold, hstate, hobs⟩ := h.snapshot id snapshot hl
  have hsize : snapshot.state.length = m.stateSize := by rw [hstate, m.checkpoint_length]
  set kept : PrefixCache := { cache with
    snapshots := cache.snapshots.insert id { snapshot with saves := snapshot.saves + 1 }
    hits := cache.hits + 1 } with hkept
  have hf : Faithful b m root R kept floor :=
    h.insert { snapshot with saves := snapshot.saves + 1 } hid hcold hstate hobs rfl rfl
  refine ⟨snapshot.depth, kept, ?_, hf, rfl, rfl, ?_⟩
  · simp only [PrefixCache.restore, hl, hsize, ne_eq, not_true_eq_false, if_false, hkept]
  · simp [hkept, AList.lookup_insert]

/-! ## The suffix -/

/-- **The frames that are run after a cached prefix do what they do in the cold run**, and what
they store is faithful. -/
theorem runSuffix_spec (order : ℕ → IterOrder) (ids : List ℕ) (hrefl : ∀ o, R o o)
    {r : Text × Values} {all : List Frame} (frameCount : ℕ) (frames : List Frame) :
    ∀ (before : List Frame) (observations observations' : List FrameObservation)
      (cache : PrefixCache) (native : Native m) (frame : m.FrameBuffer),
      all = before ++ frames → Faithful b m root R cache floor →
      Positions cache.table ids r all →
      coldCase b m (root r) before = .ok (native.state, observations) →
      List.Forall₂ R observations observations' →
      Faithful b m root R (runSuffix b m order ids frameCount before.length frames
        (lastTime 0 observations) frame observations' cache native).2.1 floor ∧
      (∀ e, coldCase b m (root r) all = .error e →
        (runSuffix b m order ids frameCount before.length frames (lastTime 0 observations) frame
          observations' cache native).1 = .error e) ∧
      ∀ state total, coldCase b m (root r) all = .ok (state, total) →
        ∃ rest, total = observations ++ rest ∧
          (runSuffix b m order ids frameCount before.length frames (lastTime 0 observations) frame
            observations' cache native).1 = .ok (observations' ++ rest) ∧
          (runSuffix b m order ids frameCount before.length frames (lastTime 0 observations) frame
            observations' cache native).2.2.state = state := by
  induction frames with
  | nil =>
    intro before observations observations' cache native frame hall hf _ hcold _
    rw [List.append_nil] at hall
    subst hall
    refine ⟨hf, fun e he => ?_, fun state total ht => ?_⟩
    · rw [hcold] at he
      cases he
    · rw [hcold] at ht
      obtain ⟨rfl, rfl⟩ : native.state = state ∧ observations = total := by simpa using ht
      exact ⟨[], by simp [runSuffix]⟩
  | cons value frames ih =>
    intro before observations observations' cache native frame hall hf hpos hcold hobs
    obtain ⟨result, state', hits, hexec⟩ := executeFrame_spec (m := m) before.length value
      native.state
    -- the cold run of one frame more
    have hmore : coldCase b m (root r) (before ++ [value]) =
        (coldFrames b m before.length [value] (lastTime 0 observations) m.zeroed native.state).map
          fun r' => (r'.1, observations ++ r'.2) := by
      rw [coldCase_append, hcold]
      rfl
    simp only [coldFrames, hexec] at hmore
    cases result with
    | error e =>
      have hfail : coldCase b m (root r) all = .error e := by
        rw [hall, List.append_cons, coldCase_append, hmore]
        rfl
      simp only [runSuffix, hexec]
      refine ⟨hf, fun e' he => ?_, fun state total ht => ?_⟩
      · rw [hfail] at he
        simpa using he
      · rw [hfail] at ht
        cases ht
    | ok p =>
      rcases p with ⟨dt, frame'⟩
      set o := captureFrameObservation b m before.length (saturatingAdd (lastTime 0 observations) dt)
        (⟨state', hits.foldl (semanticHit m.goalMapSize) clearGoalMap⟩ : Native m) with ho
      have hcold' : coldCase b m (root r) (before ++ [value]) = .ok (state', observations ++ [o]) :=
        hmore
      have hall' : all = (before ++ [value]) ++ frames := by rw [hall, List.append_cons]
      have htime : lastTime 0 (observations ++ [o]) = saturatingAdd (lastTime 0 observations) dt :=
        lastTime_concat 0 o observations
      have hobs' : List.Forall₂ R (observations ++ [o]) (observations' ++ [o]) :=
        List.rel_append hobs (.cons (hrefl o) .nil)
      have hid := hpos.denotes_getD hall'
      rw [List.length_append, List.length_singleton, Nat.add_sub_cancel] at hid
      -- the cache after this frame
      obtain ⟨cache', hcache', hf', hpos'⟩ : ∃ cache' : PrefixCache,
          (if cache.enabled = true ∧ ((before.length + 1) % 16 = 0 ∨ before.length + 1 = frameCount)
            then cache.store (order (before.length + 1)) (m.checkpoint state')
              (ids.getD before.length 0) (before.length + 1) (observations' ++ [o])
            else cache) = cache' ∧
          Faithful b m root R cache' floor ∧ Positions cache'.table ids r all := by
        refine ⟨_, rfl, ?_, ?_⟩
        · split
          · exact hf.store _ _ _ hid hcold' hobs'
          · exact hf
        · split
          · rwa [Trace.store_table]
          · exact hpos
      have := ih (before ++ [value]) (observations ++ [o]) (observations' ++ [o]) cache'
        ⟨state', hits.foldl (semanticHit m.goalMapSize) clearGoalMap⟩ frame' hall' hf' hpos' hcold' hobs'
      rw [htime, List.length_append, List.length_singleton] at this
      simp only [runSuffix, hexec, Nat.add_sub_cancel, ← ho, hcache']
      refine ⟨this.1, this.2.1, fun state total ht => ?_⟩
      obtain ⟨rest, hrest, hres, hstate⟩ := this.2.2 state total ht
      exact ⟨o :: rest, by simp [hrest], by simp [hres], hstate⟩

/-! ## The cached prefix -/

/-- A replay of frames that run cold ends where the cold run ends and shows the same, but for the
goal hits: those of earlier frames are still in the map. -/
theorem replayPrefix_spec (index : ℕ) (frames : List Frame) :
    ∀ (time : ℕ) (frame frame' : m.FrameBuffer) (shown : List FrameObservation)
      (native : Native m) (state : m.State) (observations : List FrameObservation),
      coldFrames b m index frames time frame native.state = .ok (state, observations) →
      ∃ observations' goals,
        replayPrefix b m index frames time frame' shown native =
          (.ok (shown ++ observations'), ⟨state, goals⟩) ∧
        List.Forall₂ FrameObservation.Agree observations observations' := by
  induction frames generalizing index with
  | nil =>
    intro time frame frame' shown native state observations h
    obtain ⟨rfl, rfl⟩ : native.state = state ∧ [] = observations := by simpa [coldFrames] using h
    exact ⟨[], native.goals, by simp [replayPrefix], .nil⟩
  | cons value frames ih =>
    intro time frame frame' shown native state observations h
    obtain ⟨result, state', hits, hexec⟩ := executeFrame_spec (m := m) index value native.state
    simp only [coldFrames, hexec] at h
    cases result with
    | error e => cases h
    | ok p =>
      rcases p with ⟨dt, frame''⟩
      simp only at h
      cases hr : coldFrames b m (index + 1) frames (saturatingAdd time dt) frame'' state' with
      | error e => simp [hr, Except.map] at h
      | ok q =>
        rcases q with ⟨state'', observations''⟩
        simp only [hr, Except.map, Except.ok.injEq, Prod.mk.injEq] at h
        obtain ⟨rfl, rfl⟩ := h
        set o' := captureFrameObservation b m index (saturatingAdd time dt)
          (⟨state', hits.foldl (semanticHit m.goalMapSize) native.goals⟩ : Native m) with ho'
        obtain ⟨observations', goals, hrep, hagree⟩ := ih (index + 1) (saturatingAdd time dt) frame''
          frame'' (shown ++ [o']) ⟨state', hits.foldl (semanticHit m.goalMapSize) native.goals⟩
          state'' observations'' hr
        refine ⟨o' :: observations', goals, ?_, .cons (capture_agree _ _ rfl) hagree⟩
        simp only [replayPrefix, hexec, ← ho', hrep]
        simp

/-- The observations of a validation replay that starts with the given native state. -/
def replayed (b : V3Bundle) (m : Machine b.abi) (frames : List Frame) (native : Native m) :
    Except ExecError (List FrameObservation) :=
  (replayPrefix b m 0 frames 0 m.zeroed [] native).1

/-- The native state in which a validation replay starts: `init` has run once more. -/
def replayStart (m : Machine b.abi) (shared : Text) (goals : GoalMap) : Native m :=
  ⟨(m.init shared).2.1, (m.init shared).2.2.foldl (semanticHit m.goalMapSize) goals⟩

/-- **A validation succeeds where the prefix runs cold to the restored state**: the states it
compares are equal, so it keeps the cache. -/
theorem validatePrefix_spec (cache : PrefixCache) {case : TestCase} {shared : Text} (ids : List ℕ)
    {start : ℕ} (native : Native m) {observations : List FrameObservation} (hnul : nul ∉ shared)
    (hinit : (m.init shared).1 = 0)
    (hcold : coldCase b m shared (case.frames.take start) = .ok (native.state, observations)) :
    ∃ cache' goals observations', validatePrefix b m case shared start ids cache native =
        (.ok ⟨ids, start, observations', true, .coldValidation⟩, cache', ⟨native.state, goals⟩) ∧
      cache'.table = cache.table ∧ cache'.snapshots = cache.snapshots ∧
      List.Forall₂ FrameObservation.Agree observations observations' ∧
      replayed b m (case.frames.take start) (replayStart m shared native.goals) =
        .ok observations' := by
  have hframes : coldFrames b m 0 (case.frames.take start) 0 m.zeroed
      (replayStart m shared native.goals).state = .ok (native.state, observations) := by
    simpa [coldCase, hnul, hinit, replayStart] using hcold
  obtain ⟨observations', goals, hrep, hagree⟩ := replayPrefix_spec 0 (case.frames.take start) 0
    m.zeroed m.zeroed [] (replayStart m shared native.goals) native.state observations hframes
  rw [List.nil_append] at hrep
  refine ⟨{ cache with validations := cache.validations + 1, savedScans := cache.savedScans - start },
    goals, observations', ?_, rfl, rfl, hagree, by rw [replayed, hrep]⟩
  unfold replayStart at hrep
  simp only [validatePrefix, hinit, ne_eq, not_true_eq_false, if_false, hrep]

/-- **What resuming does**: it succeeds and leaves the native state of a cold run of the first
`start` frames; the observations are those of a snapshot, or of a validation replay on every 32nd
hit.  The states the replay compares are equal, so validation never empties the cache. -/
theorem resumePrefix_spec (hR : ∀ o o', R o o' → o.Agree o') (hf : Faithful b m root R cache floor)
    {case : TestCase} {shared : Text} {ids : List ℕ} {start : ℕ} (native : Native m)
    (hpos : Positions cache.table ids (case.initProfile, case.shared) case.frames)
    (hfiled : start ≠ 0 → (cache.snapshots.lookup (ids.getD (start - 1) 0)).isSome)
    (hshared : shared = root (case.initProfile, case.shared)) (hstart : start ≤ case.frames.length)
    (hnul : nul ∉ shared) (hinit : (m.init shared).1 = 0)
    (hstate : native.state = (m.init shared).2.1) :
    ∃ r cache' native', resumePrefix b m case shared start ids cache native =
        (.ok r, cache', native') ∧
      Faithful b m root R cache' floor ∧
      Positions cache'.table r.prefixIds (case.initProfile, case.shared) case.frames ∧
      r.start = start ∧
      ∃ observations, coldCase b m shared (case.frames.take start) =
          .ok (native'.state, observations) ∧
        List.Forall₂ FrameObservation.Agree observations r.observations ∧
        if start ≠ 0 ∧ (cache.hits + 1) % 32 = 0 then
          replayed b m (case.frames.take start) (replayStart m shared native.goals) =
            .ok r.observations
        else List.Forall₂ R observations r.observations := by
  by_cases hs0 : start = 0
  · subst hs0
    have hzero : coldCase b m shared (case.frames.take 0) = .ok (native.state, []) := by
      simp [coldCase, hnul, hinit, coldFrames, hstate]
    refine ⟨_, cache, native, if_pos rfl, hf, hpos, rfl, [], hzero, .nil, ?_⟩
    rw [if_neg (by simp)]
    exact .nil
  -- the snapshot is looked up under the identity of the first `start` frames
  have hids : start - 1 < ids.length := by rw [hpos.length]; omega
  have hden : cache.table.Denotes (ids.getD (start - 1) 0) (case.initProfile, case.shared)
      (case.frames.take start) := by
    have := hpos.denotes _ _ (List.getElem?_eq_getElem hids)
    rw [List.getD_eq_getElem?_getD, List.getElem?_eq_getElem hids, Option.getD_some]
    rwa [show start - 1 + 1 = start by omega] at this
  obtain ⟨snapshot, hl⟩ := Option.isSome_iff_exists.1 (hfiled hs0)
  obtain ⟨r', frames, state, observations, hid, hcold, hbytes, hobs⟩ := hf.snapshot _ snapshot hl
  obtain ⟨rfl, rfl⟩ := hid.functional hf.wf hden
  rw [← hshared] at hcold
  set attempt : PrefixCache := { cache with restoreAttempts := cache.restoreAttempts + 1 } with hatt
  have hfa : Faithful b m root R attempt floor := hf.congr rfl rfl
  obtain ⟨depth, restored, hres, hfr, htable, hhits, hlook⟩ := hfa.restore hl
  have hrest : m.restore snapshot.state native.state = state := by rw [hbytes, m.restore_checkpoint]
  set counted : PrefixCache := { restored with savedScans := restored.savedScans + start } with hcnt
  have hfc : Faithful b m root R counted floor := hfr.congr rfl rfl
  have hresume : resumePrefix b m case shared start ids cache native =
      if counted.hits % 32 = 0 then
        validatePrefix b m case shared start ids counted ⟨state, native.goals⟩
      else (.ok ⟨ids, start, snapshot.observations, false, .snapshot⟩, counted,
        ⟨state, restoreGoalHits m.goalMapSize native.goals snapshot.observations⟩) := by
    simp only [resumePrefix, if_neg hs0, ← hatt, hres, hlook, Option.getD_some, hrest, ← hcnt]
    rfl
  have hcount : counted.hits = cache.hits + 1 := hhits
  rw [hcount] at hresume
  have hposc : Positions counted.table ids (case.initProfile, case.shared) case.frames := by
    rw [show counted.table = cache.table from htable]
    exact hpos
  by_cases hval : (cache.hits + 1) % 32 = 0
  · obtain ⟨cache', goals, observations', hok, htab, hsnap, hag, hrep⟩ :=
      validatePrefix_spec counted ids ⟨state, native.goals⟩ hnul hinit hcold
    rw [if_pos hval, hok] at hresume
    refine ⟨_, cache', _, hresume, hfc.congr htab hsnap, by rwa [htab], rfl, observations, hcold,
      hag, ?_⟩
    rw [if_pos ⟨hs0, hval⟩]
    exact hrep
  · rw [if_neg hval] at hresume
    refine ⟨_, counted, _, hresume, hfc, hposc, rfl, observations, hcold, hobs.imp hR, ?_⟩
    rw [if_neg fun h => hval h.2]
    exact hobs

/-! ## A whole testcase -/

/-- The depth of the prefix `execute_with_cache` resumes from. -/
def cachedDepth (cache : PrefixCache) (case : TestCase) : ℕ :=
  if (cache.prefixIds case).2.enabled ∧ 1 < case.frames.length then
    findStart (cache.prefixIds case).2 (cache.prefixIds case).1 (case.frames.length - 1)
  else 0

/-- The execution validates the prefix it resumes from. -/
def Validates (cache : PrefixCache) (case : TestCase) : Prop :=
  cachedDepth cache case ≠ 0 ∧ (cache.hits + 1) % 32 = 0

instance (cache : PrefixCache) (case : TestCase) : Decidable (Validates cache case) := by
  unfold Validates; infer_instance

theorem findStart_le (cache : PrefixCache) (ids : List ℕ) (depth : ℕ) :
    findStart cache ids depth ≤ depth := by
  induction depth with
  | zero => exact le_rfl
  | succ depth ih =>
    unfold findStart
    split
    · exact le_rfl
    · exact ih.trans (Nat.le_succ _)

theorem cachedDepth_le (cache : PrefixCache) (case : TestCase) :
    cachedDepth cache case ≤ case.frames.length := by
  unfold cachedDepth
  split
  · exact (findStart_le _ _ _).trans (Nat.sub_le _ _)
  · exact Nat.zero_le _

theorem findStart_filed {cache : PrefixCache} {ids : List ℕ} {depth : ℕ}
    (h : findStart cache ids depth ≠ 0) :
    (cache.snapshots.lookup (ids.getD (findStart cache ids depth - 1) 0)).isSome := by
  induction depth with
  | zero => exact absurd rfl h
  | succ depth ih =>
    rw [findStart] at h ⊢
    by_cases hany : ids[depth]?.any fun id => (cache.snapshots.lookup id).isSome
    · obtain ⟨id, hid, hsome⟩ := (Option.any_eq_true _ _).1 hany
      rwa [if_pos hany, Nat.add_sub_cancel, List.getD_eq_getElem?_getD, hid]
    · rw [if_neg hany] at h ⊢
      exact ih h

/-- The prefix an execution resumes from has a snapshot. -/
theorem cachedDepth_filed {case : TestCase} (h : cachedDepth cache case ≠ 0) :
    ((cache.prefixIds case).2.snapshots.lookup
      ((cache.prefixIds case).1.getD (cachedDepth cache case - 1) 0)).isSome := by
  unfold cachedDepth at h ⊢
  by_cases henabled : (cache.prefixIds case).2.enabled = true ∧ 1 < case.frames.length
  · rw [if_pos henabled] at h ⊢
    exact findStart_filed h
  · rw [if_neg henabled] at h
    exact absurd rfl h

theorem Faithful.hits_prefixIds (hf : Faithful b m root R cache floor) (case : TestCase) :
    (cache.prefixIds case).2.hits = cache.hits := by
  have hfresh : ∃ floor', cache.fresh.table.WF floor' ∧ cache.fresh.hits = cache.hits := by
    unfold PrefixCache.fresh
    split
    · exact ⟨_, (faithful_clear cache : Faithful b m root R _ _).wf, rfl⟩
    · exact ⟨_, hf.wf, rfl⟩
  obtain ⟨floor', hwf, hhits⟩ := hfresh
  rw [(PrefixCache.prefixIds_spec cache case hwf).1]
  exact hhits

theorem Faithful.mono {R' : FrameObservation → FrameObservation → Prop}
    (hf : Faithful b m root R cache floor) (hR : ∀ o o', R o o' → R' o o') :
    Faithful b m root R' cache floor where
  wf := hf.wf
  snapshot id snapshot hl := by
    obtain ⟨r, frames, state, observations, hid, hcold, hstate, hobs⟩ := hf.snapshot id snapshot hl
    exact ⟨r, frames, state, observations, hid, hcold, hstate, hobs.imp hR⟩

/-- The native state in which the execution of a testcase resumes. -/
def afterInit (m : Machine b.abi) (shared : Text) (native : Native m) : Native m :=
  replayStart m shared native.goals

/-- Once the prefix is resumed, an execution is its suffix. -/
theorem executeCase_eq (order : ℕ → IterOrder) {case : TestCase} {shared : Text}
    {native native' : Native m} {r : Resumed} (hnul : nul ∉ shared) (hinit : (m.init shared).1 = 0)
    (hr : resumePrefix b m case shared (cachedDepth cache case) (cache.prefixIds case).1
      (cache.prefixIds case).2 (afterInit m shared native) = (.ok r, cache', native')) :
    ∃ out, out = runSuffix b m order r.prefixIds case.frames.length r.start (case.frames.drop r.start)
        (lastTime 0 r.observations) m.zeroed r.observations cache' native' ∧
      (executeCase b m order case shared cache native).2.1 = out.2.1 ∧
      (executeCase b m order case shared cache native).2.2.state = out.2.2.state ∧
      (∀ e, out.1 = .error e → (executeCase b m order case shared cache native).1 = .error e) ∧
      ∀ observations, out.1 = .ok observations → ∃ outcome,
        (executeCase b m order case shared cache native).1 = .ok outcome ∧
        outcome.observations = observations := by
  refine ⟨_, rfl, ?_⟩
  unfold cachedDepth afterInit replayStart at hr
  simp only [executeCase, if_neg hnul, hinit, ne_eq, not_true_eq_false, if_false, hr]
  rw [show (r.observations.getLast?.map FrameObservation.logicalTimeNs).getD 0 =
    lastTime 0 r.observations from rfl]
  rcases runSuffix b m order r.prefixIds case.frames.length r.start (case.frames.drop r.start)
    (lastTime 0 r.observations) m.zeroed r.observations cache' native' with
    ⟨_ | observations, cache'', native''⟩
  · exact ⟨rfl, rfl, fun e h => by simpa using h, fun observations h => nomatch h⟩
  · exact ⟨rfl, rfl, fun e h => (nomatch h), fun observations' h => ⟨_, rfl, by simpa using h⟩⟩

/-- **What an execution returns.**  From a faithful cache it succeeds exactly when the cold run
does, leaves the native state of the cold run and shows the same but for goal hits; the goal hits
are related by `R` too, unless the prefix was validated, when they are those of the replay. -/
theorem executeCase_result (hrefl : ∀ o, R o o) (hR : ∀ o o', R o o' → o.Agree o')
    (hf : Faithful b m root R cache floor) (order : ℕ → IterOrder) {case : TestCase} {shared : Text}
    (native : Native m) (hshared : shared = root (case.initProfile, case.shared)) :
    (∀ e, coldCase b m shared case.frames = .error e →
      ∃ e', (executeCase b m order case shared cache native).1 = .error e') ∧
    ∀ state total, coldCase b m shared case.frames = .ok (state, total) →
      ∃ outcome, (executeCase b m order case shared cache native).1 = .ok outcome ∧
        (executeCase b m order case shared cache native).2.2.state = state ∧
        List.Forall₂ FrameObservation.Agree total outcome.observations ∧
        if Validates cache case then
          ∃ observations observations' rest stateThere,
            coldCase b m shared (case.frames.take (cachedDepth cache case)) =
              .ok (stateThere, observations) ∧
            replayed b m (case.frames.take (cachedDepth cache case))
              (replayStart m shared (afterInit m shared native).goals) = .ok observations' ∧
            total = observations ++ rest ∧ outcome.observations = observations' ++ rest
        else List.Forall₂ R total outcome.observations := by
  by_cases hnul : nul ∈ shared
  · have hcold : coldCase b m shared case.frames = .error .sharedNul := if_pos hnul
    refine ⟨fun e he => ⟨.sharedNul, by simp [executeCase, hnul]⟩, fun state total ht => ?_⟩
    rw [hcold] at ht
    cases ht
  by_cases hinit : (m.init shared).1 = 0
  swap
  · have hcold : coldCase b m shared case.frames = .error (.init (m.init shared).1) := by
      simp [coldCase, hnul, hinit]
    refine ⟨fun e he => ⟨.init (m.init shared).1, by simp [executeCase, hnul, hinit]⟩,
      fun state total ht => ?_⟩
    rw [hcold] at ht
    cases ht
  obtain ⟨⟨floor', hf'⟩, hpos⟩ := hf.prefixIds case
  obtain ⟨r, cache', native', hres, hf'', hpos', hstart, observations, hcold, hagree, hhits⟩ :=
    resumePrefix_spec hR hf' (afterInit m shared native) hpos cachedDepth_filed hshared
      (cachedDepth_le cache case) hnul hinit rfl
  obtain ⟨out, hout, -, hstate, herr, hok⟩ := executeCase_eq order hnul hinit hres
  rw [hstart] at hout
  have hlen : (case.frames.take (cachedDepth cache case)).length = cachedDepth cache case := by
    simp [cachedDepth_le]
  have hsuffix := runSuffix_spec (R := FrameObservation.Agree) order r.prefixIds
    (r := (case.initProfile, case.shared)) .refl case.frames.length
    (case.frames.drop (cachedDepth cache case)) (case.frames.take (cachedDepth cache case))
    observations r.observations cache' native' m.zeroed (List.take_append_drop _ _).symm
    (hf''.mono hR) hpos' (by rw [← hshared]; exact hcold) hagree
  rw [hlen, lastTime_agree 0 hagree, ← hout, ← hshared] at hsuffix
  refine ⟨fun e he => ⟨e, herr e (hsuffix.2.1 e he)⟩, fun state total ht => ?_⟩
  obtain ⟨rest, hrest, hres', hst⟩ := hsuffix.2.2 state total ht
  obtain ⟨outcome, hexec, hobs⟩ := hok _ hres'
  refine ⟨outcome, hexec, hstate.trans hst, ?_, ?_⟩
  · rw [hrest, hobs]
    exact List.rel_append hagree (List.forall₂_same.2 fun o _ => .refl o)
  · rw [hf.hits_prefixIds case] at hhits
    by_cases hval : Validates cache case
    · rw [if_pos hval]
      rw [if_pos (show cachedDepth cache case ≠ 0 ∧ _ from hval)] at hhits
      exact ⟨observations, r.observations, rest, native'.state, hcold, hhits, hrest, hobs⟩
    · rw [if_neg hval]
      rw [if_neg (show ¬(cachedDepth cache case ≠ 0 ∧ _) from hval)] at hhits
      rw [hrest, hobs]
      exact List.rel_append hhits (List.forall₂_same.2 fun o _ => hrefl o)

/-- **An execution keeps the cache faithful**, if the observations of a validation replay are
related by `R` to those of the cold run. -/
theorem executeCase_faithful (hrefl : ∀ o, R o o) (hR : ∀ o o', R o o' → o.Agree o')
    (hf : Faithful b m root R cache floor) (order : ℕ → IterOrder) {case : TestCase} {shared : Text}
    (native : Native m) (hshared : shared = root (case.initProfile, case.shared))
    (hreplay : Validates cache case → ∀ state observations observations',
      coldCase b m shared (case.frames.take (cachedDepth cache case)) = .ok (state, observations) →
      replayed b m (case.frames.take (cachedDepth cache case))
        (replayStart m shared (afterInit m shared native).goals) = .ok observations' →
      List.Forall₂ R observations observations') :
    ∃ floor', Faithful b m root R (executeCase b m order case shared cache native).2.1 floor' := by
  obtain ⟨⟨floor', hf'⟩, hpos⟩ := hf.prefixIds case
  by_cases hnul : nul ∈ shared
  · exact ⟨floor', by simpa [executeCase, hnul] using hf'⟩
  by_cases hinit : (m.init shared).1 = 0
  swap
  · exact ⟨floor', by simpa [executeCase, hnul, hinit] using hf'⟩
  obtain ⟨r, cache', native', hres, hf'', hpos', hstart, observations, hcold, hagree, hhits⟩ :=
    resumePrefix_spec hR hf' (afterInit m shared native) hpos cachedDepth_filed hshared
      (cachedDepth_le cache case) hnul hinit rfl
  obtain ⟨out, hout, hcache, -⟩ := executeCase_eq order hnul hinit hres
  rw [hstart] at hout
  have hobs : List.Forall₂ R observations r.observations := by
    rw [hf.hits_prefixIds case] at hhits
    by_cases hval : Validates cache case
    · rw [if_pos (show cachedDepth cache case ≠ 0 ∧ _ from hval)] at hhits
      exact hreplay hval native'.state observations r.observations hcold hhits
    · rwa [if_neg (show ¬(cachedDepth cache case ≠ 0 ∧ _) from hval)] at hhits
  have hlen : (case.frames.take (cachedDepth cache case)).length = cachedDepth cache case := by
    simp [cachedDepth_le]
  have hsuffix := runSuffix_spec (R := R) order r.prefixIds (r := (case.initProfile, case.shared))
    hrefl case.frames.length (case.frames.drop (cachedDepth cache case))
    (case.frames.take (cachedDepth cache case)) observations r.observations cache' native' m.zeroed
    (List.take_append_drop _ _).symm hf'' hpos' (by rw [← hshared]; exact hcold) hobs
  rw [hlen, lastTime_agree 0 hagree, ← hout] at hsuffix
  exact ⟨floor', by rw [hcache]; exact hsuffix.1⟩

end SemantiST.Engine
