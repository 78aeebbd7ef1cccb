import SemantiST.Engine.CachedRuns

/-!
# The operations of an execution

What `execute_with_cache` does to a cache is a list of the operations of `CacheRuns`: every
snapshot is stored with as many observations as its prefix is deep, for any texts, any program
under test and any iteration orders.
-/

namespace SemantiST.Engine

open Lib

/-! ## Caches that operations lead to -/

/-- A cache operation without the log of a trace. -/
def cacheStep (cache : PrefixCache) (op : CacheOp) : PrefixCache :=
  (Trace.step ⟨cache, 0, []⟩ op).cache

theorem Trace.step_cache (t : Trace) (op : CacheOp) :
    (t.step op).cache = cacheStep t.cache op := by
  cases op <;> rfl

theorem Trace.foldl_cache (ops : List CacheOp) (t : Trace) :
    (ops.foldl Trace.step t).cache = ops.foldl cacheStep t.cache := by
  induction ops generalizing t with
  | nil => rfl
  | cons op ops ih => rw [List.foldl_cons, List.foldl_cons, ih, Trace.step_cache]

/-- Some operations make `cache'` of `cache`. -/
def PrefixCache.Becomes (cache cache' : PrefixCache) : Prop :=
  ∃ ops : List CacheOp, ops.foldl cacheStep cache = cache'

namespace PrefixCache

variable {cache cache' cache'' : PrefixCache}

theorem Becomes.refl (cache : PrefixCache) : cache.Becomes cache := ⟨[], rfl⟩

theorem Becomes.trans (h : cache.Becomes cache') (h' : cache'.Becomes cache'') :
    cache.Becomes cache'' := by
  obtain ⟨ops, rfl⟩ := h
  obtain ⟨ops', rfl⟩ := h'
  exact ⟨ops ++ ops', List.foldl_append⟩

theorem Becomes.step (h : cache.Becomes cache') (op : CacheOp) :
    cache.Becomes (cacheStep cache' op) :=
  h.trans ⟨[op], rfl⟩

/-- The public fields may be set to anything. -/
theorem Becomes.counters (h : cache.Becomes cache')
    (hs : ∃ hits savedScans restoreAttempts validations invalidations enabled,
      cache'' = { cache' with
        hits := hits
        savedScans := savedScans
        restoreAttempts := restoreAttempts
        validations := validations
        invalidations := invalidations
        enabled := enabled }) : cache.Becomes cache'' := by
  obtain ⟨hits, savedScans, restoreAttempts, validations, invalidations, enabled, rfl⟩ := hs
  exact h.step (.setCounters hits savedScans restoreAttempts validations invalidations enabled)

/-! ## Snapshots of the right size -/

/-- Every snapshot has one observation for each frame of the prefix it is filed under. -/
structure Sized (cache : PrefixCache) (floor : ℕ) : Prop where
  wf : cache.table.WF floor
  observations : ∀ id snapshot, cache.snapshots.lookup id = some snapshot →
    ∃ r frames, cache.table.Denotes id r frames ∧ snapshot.observations.length = frames.length

variable {floor : ℕ}

theorem Sized.congr (h : cache.Sized floor) (ht : cache'.table = cache.table)
    (hs : cache'.snapshots = cache.snapshots) : cache'.Sized floor where
  wf := by rw [ht]; exact h.wf
  observations := by rw [ht, hs]; exact h.observations

theorem sized_clear (cache : PrefixCache) : cache.clear.Sized cache.nextId where
  wf := PathTable.wf_empty (t := cache.clear.table) rfl rfl
  observations id snapshot h := by simp [clear] at h

theorem Sized.shrunk (h : cache.Sized floor) (hs : cache.Shrunk cache') : cache'.Sized floor := by
  have ht : cache'.table = cache.table := by rw [hs.rest]; rfl
  refine ⟨by rw [ht]; exact h.wf, fun id snapshot hl => ?_⟩
  rw [ht]
  exact h.observations id snapshot (hs.lookup id snapshot hl)

theorem Sized.insert (h : cache.Sized floor) {id : ℕ} (snapshot : Snapshot) {r : Text × Values}
    {frames : List Frame} (hid : cache.table.Denotes id r frames)
    (hlen : snapshot.observations.length = frames.length)
    (hs : cache'.snapshots = cache.snapshots.insert id snapshot)
    (ht : cache'.table = cache.table) : cache'.Sized floor := by
  refine ⟨by rw [ht]; exact h.wf, fun i s hl => ?_⟩
  rw [ht]
  rw [hs] at hl
  rcases lookup_insert_cases hl with ⟨rfl, rfl⟩ | ⟨-, hl⟩
  · exact ⟨r, frames, hid, hlen⟩
  · exact h.observations i s hl

theorem Sized.prefixIds (h : cache.Sized floor) (case : TestCase) :
    (∃ floor', (cache.prefixIds case).2.Sized floor') ∧
    Positions (cache.prefixIds case).2.table (cache.prefixIds case).1
      (case.initProfile, case.shared) case.frames := by
  obtain ⟨floor', hf⟩ : ∃ floor', cache.fresh.Sized floor' := by
    unfold fresh
    split
    · exact ⟨_, sized_clear cache⟩
    · exact ⟨_, h⟩
  obtain ⟨honly, hwf, hext, hlen, hden⟩ := prefixIds_spec cache case hf.wf
  refine ⟨⟨floor', hwf, fun id snapshot hl => ?_⟩, hlen, hden⟩
  rw [honly] at hl
  obtain ⟨r, frames, hid, hobs⟩ := hf.observations id snapshot hl
  exact ⟨r, frames, hid.mono hext, hobs⟩

theorem Sized.store (h : cache.Sized floor) (order : IterOrder) (checkpoint : List UInt8)
    (id depth : ℕ) {observations : List FrameObservation} {r : Text × Values}
    {frames : List Frame} (hid : cache.table.Denotes id r frames)
    (hlen : observations.length = frames.length) :
    (cache.store order checkpoint id depth observations).Sized floor := by
  rcases store_cases cache order checkpoint id depth observations with
    heq | ⟨existing, hl, heq⟩ | ⟨-, -, -, -, roomy, hroom, heq⟩ <;> rw [heq]
  · exact h
  · obtain ⟨r', frames', hid', hlen'⟩ := h.observations id existing hl
    exact h.insert { existing with saves := existing.saves + 1 } hid' hlen' rfl rfl
  · have hs := (evict_shrunk cache order).trans (makeRoom_shrunk (cache.evict order) order
      (checkpoint.length + observationBytes observations))
    rw [← hroom] at hs
    have ht : roomy.table = cache.table := by rw [hs.rest]; rfl
    exact (h.shrunk hs).insert _ (by rw [ht]; exact hid) hlen rfl rfl

/-- A snapshot that is handed out has one observation for each frame of the prefix. -/
theorem Sized.restore (h : cache.Sized floor) (expectedSize id : ℕ) :
    (cache.restore expectedSize id).2.Sized floor ∧
    ∀ handed, (cache.restore expectedSize id).1 = some handed →
      ∀ r frames, cache.table.Denotes id r frames →
        ((((cache.restore expectedSize id).2.snapshots.lookup id).map
          Snapshot.observations).getD []).length = frames.length := by
  rcases restore_cases cache expectedSize id with
    ⟨-, heq⟩ | ⟨snapshot, -, -, heq⟩ | ⟨snapshot, hl, -, heq⟩ <;> rw [heq]
  · exact ⟨h, fun _ h => nomatch h⟩
  · exact ⟨(h.shrunk (remove_shrunk cache id)).congr rfl rfl, fun _ h => nomatch h⟩
  · obtain ⟨r, frames, hid, hlen⟩ := h.observations id snapshot hl
    refine ⟨h.insert { snapshot with saves := snapshot.saves + 1 } hid hlen rfl rfl,
      fun _ _ r' frames' hid' => ?_⟩
    obtain ⟨-, rfl⟩ := hid.functional h.wf hid'
    simpa [AList.lookup_insert] using hlen

end PrefixCache

open PrefixCache

/-! ## The operations of one execution -/

variable {b : V3Bundle} {m : Machine b.abi} {cache : PrefixCache} {floor : ℕ}

/-- **The frames that are run store one observation for each frame up to theirs.** -/
theorem runSuffix_becomes (order : ℕ → IterOrder) {ids : List ℕ} {r : Text × Values}
    {all : List Frame} (frameCount : ℕ) (frames : List Frame) :
    ∀ (before : List Frame) (time : ℕ) (frame : m.FrameBuffer)
      (observations : List FrameObservation) (cache : PrefixCache) (native : Native m),
      all = before ++ frames → cache.Sized floor → Positions cache.table ids r all →
      observations.length = before.length →
      cache.Becomes (runSuffix b m order ids frameCount before.length frames time frame
        observations cache native).2.1 ∧
      (runSuffix b m order ids frameCount before.length frames time frame
        observations cache native).2.1.Sized floor := by
  induction frames with
  | nil => exact fun _ _ _ _ cache _ _ hsized _ _ => ⟨.refl cache, hsized⟩
  | cons value frames ih =>
    intro before time frame observations cache native hall hsized hpos hlen
    rcases hexec : executeFrame b m before.length value frame
        { native with goals := clearGoalMap } with ⟨_ | ⟨dt, frame'⟩, native'⟩
    · simp only [runSuffix, hexec]
      exact ⟨.refl cache, hsized⟩
    · set shown := observations ++
        [captureFrameObservation b m before.length (saturatingAdd time dt) native'] with hshown
      have hall' : all = (before ++ [value]) ++ frames := by rw [hall, List.append_cons]
      have hlen' : shown.length = (before ++ [value]).length := by simp [hshown, hlen]
      have hid := hpos.denotes_getD hall'
      rw [← hlen'] at hid
      have hdepth : before.length + 1 = shown.length := by rw [hlen']; simp
      obtain ⟨cache', hcache', hop, hsized', hpos'⟩ : ∃ cache' : PrefixCache,
          (if cache.enabled = true ∧ ((before.length + 1) % 16 = 0 ∨ before.length + 1 = frameCount)
            then cache.store (order (before.length + 1)) (m.checkpoint native'.state)
              (ids.getD (before.length + 1 - 1) 0) (before.length + 1) shown
            else cache) = cache' ∧
          cache.Becomes cache' ∧ cache'.Sized floor ∧ Positions cache'.table ids r all := by
        refine ⟨_, rfl, ?_⟩
        rw [hdepth]
        split
        · exact ⟨(Becomes.refl cache).step (.store _ _ _ shown), hsized.store _ _ _ _ hid hlen',
            by rwa [Trace.store_table]⟩
        · exact ⟨.refl cache, hsized, hpos⟩
      have := ih (before ++ [value]) (saturatingAdd time dt) frame' shown cache' native' hall'
        hsized' hpos' hlen'
      rw [show (before ++ [value]).length = before.length + 1 by simp] at this
      simp only [runSuffix, hexec, ← hshown, hcache']
      exact ⟨hop.trans this.1, this.2⟩

/-- A replay that succeeds shows every frame. -/
theorem replayPrefix_length (frames : List Frame) :
    ∀ (index time : ℕ) (frame : m.FrameBuffer) (shown observations : List FrameObservation)
      (native : Native m),
      (replayPrefix b m index frames time frame shown native).1 = .ok observations →
      observations.length = shown.length + frames.length := by
  induction frames with
  | nil =>
    intro index time frame shown observations native h
    simp only [replayPrefix, Except.ok.injEq] at h
    rw [← h, List.length_nil, Nat.add_zero]
  | cons value frames ih =>
    intro index time frame shown observations native h
    rw [replayPrefix] at h
    rcases hexec : executeFrame b m index value frame native with ⟨_ | ⟨dt, frame'⟩, native'⟩
    · simp [hexec] at h
    · simp only [hexec] at h
      rw [ih _ _ _ _ _ _ h]
      simp only [List.length_append, List.length_cons, List.length_nil]
      omega

/-- What is known of the place an execution resumes from. -/
structure Resumed.Aligned (r : Resumed) (cache : PrefixCache) (case : TestCase) : Prop where
  positions : Positions cache.table r.prefixIds (case.initProfile, case.shared) case.frames
  start_le : r.start ≤ case.frames.length
  observations : r.observations.length = r.start

theorem validatePrefix_becomes {case : TestCase} {ids : List ℕ} {start : ℕ} (shared : Text)
    (native : Native m) (hsized : cache.Sized floor) (hstart : start ≤ case.frames.length)
    (hpos : Positions cache.table ids (case.initProfile, case.shared) case.frames) :
    cache.Becomes (validatePrefix b m case shared start ids cache native).2.1 ∧
    (∃ floor', (validatePrefix b m case shared start ids cache native).2.1.Sized floor') ∧
    ∀ r, (validatePrefix b m case shared start ids cache native).1 = .ok r →
      r.Aligned (validatePrefix b m case shared start ids cache native).2.1 case := by
  set counted : PrefixCache := { cache with validations := cache.validations + 1 } with hcounted
  have hcount : cache.Becomes counted :=
    (Becomes.refl cache).counters ⟨_, _, _, cache.validations + 1, _, _, rfl⟩
  have hsized' : counted.Sized floor := hsized.congr rfl rfl
  unfold validatePrefix
  simp only [← hcounted]
  split
  · exact ⟨hcount, ⟨_, hsized'⟩, fun _ h => nomatch h⟩
  split
  · exact ⟨hcount, ⟨_, hsized'⟩, fun _ h => nomatch h⟩
  rename_i observations native' hrep
  have hlen := replayPrefix_length (b := b) (m := m) (case.frames.take start) 0 0 m.zeroed []
    observations _ (congrArg Prod.fst hrep)
  rw [List.length_nil, Nat.zero_add, List.length_take, Nat.min_eq_left hstart] at hlen
  split
  · -- the cache is emptied and the identities of the testcase are given out anew
    set emptied : PrefixCache := PrefixCache.clear
      { counted with
        savedScans := counted.savedScans - start
        invalidations := counted.invalidations + 1 } with hemptied
    have hempty : counted.Becomes emptied :=
      ((Becomes.refl counted).counters
        ⟨_, counted.savedScans - start, _, _, counted.invalidations + 1, _, rfl⟩).step .clear
    obtain ⟨hsized'', hpos'⟩ := (sized_clear _ : emptied.Sized _).prefixIds case
    refine ⟨(hcount.trans hempty).step (.prefixIds case), hsized'', fun r h => ?_⟩
    obtain rfl := Except.ok.inj h
    exact ⟨hpos', hstart, hlen⟩
  · refine ⟨hcount.counters ⟨_, counted.savedScans - start, _, _, _, _, rfl⟩,
      ⟨_, hsized'.congr rfl rfl⟩, fun r h => ?_⟩
    obtain rfl := Except.ok.inj h
    exact ⟨hpos, hstart, hlen⟩

theorem resumePrefix_becomes {case : TestCase} {ids : List ℕ} {start : ℕ} (shared : Text)
    (native : Native m) (hsized : cache.Sized floor) (hstart : start ≤ case.frames.length)
    (hpos : Positions cache.table ids (case.initProfile, case.shared) case.frames) :
    cache.Becomes (resumePrefix b m case shared start ids cache native).2.1 ∧
    (∃ floor', (resumePrefix b m case shared start ids cache native).2.1.Sized floor') ∧
    ∀ r, (resumePrefix b m case shared start ids cache native).1 = .ok r →
      r.Aligned (resumePrefix b m case shared start ids cache native).2.1 case := by
  by_cases hzero : start = 0
  · rw [resumePrefix, if_pos hzero]
    refine ⟨.refl cache, ⟨_, hsized⟩, fun r h => ?_⟩
    obtain rfl := Except.ok.inj h
    exact ⟨hpos, Nat.zero_le _, rfl⟩
  have hids : start - 1 < ids.length := by rw [hpos.length]; omega
  have hden : cache.table.Denotes (ids.getD (start - 1) 0) (case.initProfile, case.shared)
      (case.frames.take start) := by
    have := hpos.denotes _ _ (List.getElem?_eq_getElem hids)
    rw [List.getD_eq_getElem?_getD, List.getElem?_eq_getElem hids, Option.getD_some]
    rwa [show start - 1 + 1 = start by omega] at this
  set id := ids.getD (start - 1) 0 with hid
  set attempt : PrefixCache := { cache with restoreAttempts := cache.restoreAttempts + 1 } with hatt
  have hattempt : cache.Becomes attempt :=
    (Becomes.refl cache).counters ⟨_, _, cache.restoreAttempts + 1, _, _, _, rfl⟩
  have hsizedA : attempt.Sized floor := hsized.congr rfl rfl
  obtain ⟨hsizedR, hhanded⟩ := hsizedA.restore m.stateSize id
  have htable : (attempt.restore m.stateSize id).2.table = cache.table :=
    Trace.restore_table attempt _ _
  have hrestored : cache.Becomes (attempt.restore m.stateSize id).2 :=
    hattempt.step (.restore m.stateSize id)
  have hposR : Positions (attempt.restore m.stateSize id).2.table ids
      (case.initProfile, case.shared) case.frames := by rwa [htable]
  rw [resumePrefix, if_neg hzero]
  simp only [← hid, ← hatt]
  rcases hres : attempt.restore m.stateSize id with ⟨_ | ⟨bytes, depth⟩, restored⟩ <;>
    simp only [hres] at hsizedR hhanded hrestored hposR ⊢
  · refine ⟨hrestored, ⟨_, hsizedR⟩, fun r h => ?_⟩
    obtain rfl := Except.ok.inj h
    exact ⟨hposR, Nat.zero_le _, rfl⟩
  · have hlen := hhanded _ rfl _ _ hden
    rw [List.length_take, Nat.min_eq_left hstart] at hlen
    have hsaved : cache.Becomes { restored with savedScans := restored.savedScans + start } :=
      hrestored.counters ⟨_, restored.savedScans + start, _, _, _, _, rfl⟩
    split
    · obtain ⟨hval, hrest⟩ := validatePrefix_becomes (b := b) shared
        { native with state := m.restore bytes native.state }
        (hsizedR.congr rfl rfl : Sized { restored with
          savedScans := restored.savedScans + start } floor) hstart hposR
      exact ⟨hsaved.trans hval, hrest⟩
    · refine ⟨hsaved, ⟨_, hsizedR.congr rfl rfl⟩, fun r h => ?_⟩
      obtain rfl := Except.ok.inj h
      exact ⟨hposR, hstart, hlen⟩

/-- **An execution is a list of operations**, and it files snapshots of the right size. -/
theorem executeWithCache_becomes (order : ℕ → IterOrder) (text : Text) (native : Native m)
    (hsized : cache.Sized floor) :
    cache.Becomes (executeWithCache b m order text cache native).2.1 ∧
    ∃ floor', (executeWithCache b m order text cache native).2.1.Sized floor' := by
  unfold executeWithCache
  cases hparse : parseTestcase text (schema b.abi) with
  | error e => exact ⟨.refl cache, floor, hsized⟩
  | ok case =>
    obtain ⟨⟨floor', hsized'⟩, hpos⟩ := hsized.prefixIds case
    have hids : cache.Becomes (cache.prefixIds case).2 := (Becomes.refl cache).step (.prefixIds case)
    simp only [executeCase]
    split
    · exact ⟨hids, floor', hsized'⟩
    split
    · exact ⟨hids, floor', hsized'⟩
    obtain ⟨hbecomes, ⟨floor'', hsized''⟩, haligned⟩ := resumePrefix_becomes (b := b) (m := m)
      (sharedRecords text) (afterInit m (sharedRecords text) native) hsized'
      (cachedDepth_le cache case) hpos
    unfold cachedDepth afterInit replayStart at hbecomes hsized'' haligned
    split <;> rename_i hres <;> rw [hres] at hbecomes hsized'' haligned
    · exact ⟨hids.trans hbecomes, floor'', hsized''⟩
    · rename_i r cache' native'
      obtain ⟨hposr, hstart, hobs⟩ := haligned r rfl
      have hlen : (case.frames.take r.start).length = r.start := by simp [hstart]
      have hrun := runSuffix_becomes (b := b) (m := m) order case.frames.length
        (case.frames.drop r.start) (case.frames.take r.start) (lastTime 0 r.observations) m.zeroed
        r.observations cache' native' (List.take_append_drop _ _).symm hsized'' hposr
        (hobs.trans hlen.symm)
      rw [hlen] at hrun
      unfold lastTime at hrun
      split <;> rename_i hsuffix <;> rw [hsuffix] at hrun <;>
        exact ⟨(hids.trans hbecomes).trans hrun.1, floor'', hrun.2⟩

/-! ## Runs of executions -/

/-- What a caller does with a cache: it sets the public fields and executes a text, or clears. -/
inductive Request (b : V3Bundle) (m : Machine b.abi) where
  | execute (order : ℕ → IterOrder) (text : Text) (hits : ℕ) (enabled : Bool) (native : Native m)
  | clear

def Request.apply (cache : PrefixCache) : Request b m → PrefixCache
  | .execute order text hits enabled native =>
    (executeWithCache b m order text { cache with hits := hits, enabled := enabled } native).2.1
  | .clear => cache.clear

theorem Request.apply_becomes (request : Request b m) (hsized : cache.Sized floor) :
    cache.Becomes (request.apply cache) ∧ ∃ floor', (request.apply cache).Sized floor' := by
  cases request with
  | execute order text hits enabled native =>
    have hset : cache.Becomes { cache with hits := hits, enabled := enabled } :=
      (Becomes.refl cache).counters ⟨hits, _, _, _, _, enabled, rfl⟩
    obtain ⟨hrun, hrest⟩ := executeWithCache_becomes (b := b) order text native
      (hsized.congr rfl rfl : Sized { cache with hits := hits, enabled := enabled } floor)
    exact ⟨hset.trans hrun, hrest⟩
  | clear => exact ⟨(Becomes.refl cache).step .clear, _, sized_clear cache⟩

/-- **The caches that executions lead to are caches of traced runs.** -/
theorem exists_run_requests (maxBytes maxEntries : ℕ) (enabled : Bool)
    (requests : List (Request b m)) :
    ∃ ops, (Trace.run maxBytes maxEntries enabled ops).cache =
      requests.foldl Request.apply (Trace.start maxBytes maxEntries enabled).cache := by
  set empty := (Trace.start maxBytes maxEntries enabled).cache with hempty
  have hstart : empty.Sized 1 :=
    ⟨PathTable.wf_empty (t := empty.table) rfl rfl, fun id snapshot h => by
      simp [hempty, Trace.start] at h⟩
  obtain ⟨⟨ops, hops⟩, -⟩ : empty.Becomes (requests.foldl Request.apply empty) ∧
      ∃ floor, (requests.foldl Request.apply empty).Sized floor := by
    refine List.foldlRecOn (motive := fun cache : PrefixCache => empty.Becomes cache ∧
      ∃ floor, cache.Sized floor) requests Request.apply ⟨.refl empty, 1, hstart⟩ ?_
    rintro cache ⟨hbecomes, floor, hsized⟩ request -
    obtain ⟨happly, hrest⟩ := request.apply_becomes hsized
    exact ⟨hbecomes.trans happly, hrest⟩
  exact ⟨ops, by rw [Trace.run, Trace.foldl_cache, hops]⟩

/-- So the books are in order after any executions. -/
theorem accounted_requests (maxBytes maxEntries : ℕ) (enabled : Bool)
    (requests : List (Request b m)) :
    (requests.foldl Request.apply (Trace.start maxBytes maxEntries enabled).cache).Accounted := by
  obtain ⟨ops, hops⟩ := exists_run_requests maxBytes maxEntries enabled requests
  obtain ⟨floor, h⟩ := Trace.inv_run maxBytes maxEntries enabled ops
  rw [← hops]
  exact h.accounted

end SemantiST.Engine
