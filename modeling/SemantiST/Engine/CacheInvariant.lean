import Mathlib.Algebra.BigOperators.Group.List.Basic
import SemantiST.Engine.PrefixCache

/-!
# Identity and accounting of the prefix cache

What holds of a `PrefixCache` after any sequence of its operations.  The tables are a
`PathTable`, so an identity stands for one prefix; the byte counter is the sum of the stored
sizes.  A run is traced (`Trace`), so that identities issued at different times can be compared.
-/

namespace SemantiST.Engine

open Lib

namespace PrefixCache

variable {cache cache' cache'' : PrefixCache} {order : IterOrder}

/-! ## The tables -/

/-- The tables of a cache as a table of interned paths. -/
def table (cache : PrefixCache) : PathTable (Text × Values) Frame where
  roots := cache.roots.map fun root => (root.id, root.initProfile, root.shared)
  nodes := cache.nodes.map fun node => (node.id, node.parentId, node.frame)
  next := cache.nextId

/-- Only the tables differ. -/
def OnlyTables (cache cache' : PrefixCache) : Prop :=
  cache' = { cache with roots := cache'.roots, nodes := cache'.nodes, nextId := cache'.nextId }

theorem OnlyTables.refl (cache : PrefixCache) : cache.OnlyTables cache := rfl

theorem OnlyTables.trans (h : cache.OnlyTables cache') (h' : cache'.OnlyTables cache'') :
    cache.OnlyTables cache'' := by
  unfold OnlyTables at *
  rw [h] at h'
  exact h'

theorem rootId_onlyTables (cache : PrefixCache) (initProfile : Text) (shared : Values) :
    cache.OnlyTables (cache.rootId initProfile shared).2 := by
  unfold rootId
  split <;> rfl

theorem nodeId_onlyTables (cache : PrefixCache) (parentId : ℕ) (frame : Frame) :
    cache.OnlyTables (cache.nodeId parentId frame).2 := by
  unfold nodeId
  split <;> rfl

theorem nodeIds_onlyTables (cache : PrefixCache) (parentId : ℕ) (frames : List Frame) :
    cache.OnlyTables (cache.nodeIds parentId frames).2 := by
  induction frames generalizing cache parentId with
  | nil => exact .refl cache
  | cons frame frames ih => exact (nodeId_onlyTables cache parentId frame).trans (ih _ _)

/-- Looking a key up in the mapped table is looking it up in the table. -/
theorem idOf_map {α κ : Type*} [DecidableEq κ] (l : List α) (id : α → ℕ) (key : α → κ) (k : κ) :
    idOf (l.map fun a => (id a, key a)) k = (l.find? fun a => key a = k).map id := by
  simp [idOf, List.find?_map, Function.comp_def]

theorem rootId_table (cache : PrefixCache) (initProfile : Text) (shared : Values) :
    cache.table.internRoot (initProfile, shared) =
      ((cache.rootId initProfile shared).1, (cache.rootId initProfile shared).2.table) := by
  have hid := idOf_map cache.roots PrefixRoot.id (fun root => (root.initProfile, root.shared))
    (initProfile, shared)
  simp only [Prod.mk.injEq] at hid
  unfold PathTable.internRoot rootId
  rw [show cache.table.roots = cache.roots.map fun root => (root.id, root.initProfile, root.shared)
    from rfl, hid]
  cases cache.roots.find? fun root => root.initProfile = initProfile ∧ root.shared = shared with
  | none => simp [table]
  | some root => rfl

theorem nodeId_table (cache : PrefixCache) (parentId : ℕ) (frame : Frame) :
    cache.table.internNode parentId frame =
      ((cache.nodeId parentId frame).1, (cache.nodeId parentId frame).2.table) := by
  have hid := idOf_map cache.nodes PrefixNode.id (fun node => (node.parentId, node.frame))
    (parentId, frame)
  simp only [Prod.mk.injEq] at hid
  unfold PathTable.internNode nodeId
  rw [show cache.table.nodes = cache.nodes.map fun node => (node.id, node.parentId, node.frame)
    from rfl, hid]
  cases cache.nodes.find? fun node => node.parentId = parentId ∧ node.frame = frame with
  | none => simp [table]
  | some node => rfl

theorem nodeIds_table (cache : PrefixCache) (parentId : ℕ) (frames : List Frame) :
    cache.table.internFrom parentId frames =
      ((cache.nodeIds parentId frames).1, (cache.nodeIds parentId frames).2.table) := by
  induction frames generalizing cache parentId with
  | nil => rfl
  | cons frame frames ih => simp [PathTable.internFrom, nodeIds, nodeId_table, ih]

/-- The cache `prefix_ids` starts from. -/
def fresh (cache : PrefixCache) : PrefixCache := if cache.overflowed then cache.clear else cache

/-- **What `prefix_ids` does.**  It clears the cache if the tables have outgrown the limit; then
only the tables change, everything filed stays, and position `k` gets the identity of the first
`k + 1` frames. -/
theorem prefixIds_spec (cache : PrefixCache) (case : TestCase) {floor : ℕ}
    (hwf : cache.fresh.table.WF floor) :
    cache.fresh.OnlyTables (cache.prefixIds case).2 ∧
    (cache.prefixIds case).2.table.WF floor ∧
    cache.fresh.table.Extends (cache.prefixIds case).2.table ∧
    (cache.prefixIds case).1.length = case.frames.length ∧
    ∀ k id, (cache.prefixIds case).1[k]? = some id →
      (cache.prefixIds case).2.table.Denotes id (case.initProfile, case.shared)
        (case.frames.take (k + 1)) := by
  have hroot := rootId_table cache.fresh case.initProfile case.shared
  have hnodes := nodeIds_table (cache.fresh.rootId case.initProfile case.shared).2
    (cache.fresh.rootId case.initProfile case.shared).1 case.frames
  have hids : cache.prefixIds case = (cache.fresh.rootId case.initProfile case.shared).2.nodeIds
    (cache.fresh.rootId case.initProfile case.shared).1 case.frames := rfl
  have hwf' := PathTable.internRoot_wf (r := (case.initProfile, case.shared)) hwf
  have hext := PathTable.internRoot_extends cache.fresh.table (case.initProfile, case.shared)
  have hden := PathTable.internRoot_denotes cache.fresh.table (case.initProfile, case.shared)
  rw [hroot] at hwf' hext hden
  have hwf'' := PathTable.internFrom_wf hwf'
    (cache.fresh.rootId case.initProfile case.shared).1 case.frames
  have hext' := PathTable.internFrom_extends (cache.fresh.rootId case.initProfile case.shared).2.table
    (cache.fresh.rootId case.initProfile case.shared).1 case.frames
  have hlen := PathTable.internFrom_length (cache.fresh.rootId case.initProfile case.shared).2.table
    (cache.fresh.rootId case.initProfile case.shared).1 case.frames
  have hden' := fun k id => PathTable.internFrom_denotes (k := k) (i := id) hden case.frames
  rw [hnodes, ← hids] at hwf'' hext' hlen hden'
  refine ⟨?_, hwf'', hext.trans hext', hlen, fun k id h => by simpa using hden' k id h⟩
  rw [hids]
  exact (rootId_onlyTables _ _ _).trans (nodeIds_onlyTables _ _ _)

/-! ## The loops -/

theorem mem_of_victim {id : ℕ} (h : cache.victim order = some id) : id ∈ cache.snapshots := by
  obtain ⟨e, he, rfl⟩ := Option.map_eq_some_iff.1 h
  have hmem : e ∈ cache.snapshots.entries := (order.perm _).mem_iff.1 (List.argmin_mem he)
  exact AList.mem_keys.2 (List.mem_map_of_mem hmem)

theorem victim_eq_none_iff : cache.victim order = none ↔ cache.snapshots.entries = [] := by
  rw [victim, Option.map_eq_none_iff, List.argmin_eq_none]
  constructor
  · intro h
    have := (order.perm cache.snapshots.entries).length_eq
    simpa [h] using this.symm
  · intro h
    have := (order.perm cache.snapshots.entries).length_eq
    simpa [h] using this

/-- The entries, with one of them in front. -/
theorem perm_cons_erase {s : Snapshots} {id : ℕ} {snapshot : Snapshot}
    (h : s.lookup id = some snapshot) : s.entries.Perm (⟨id, snapshot⟩ :: (s.erase id).entries) := by
  have hmem : id ∈ s.entries.keys := List.dlookup_isSome.1 (by
    rw [show s.entries.dlookup id = some snapshot from h]; rfl)
  obtain ⟨b, l₁, l₂, -, hl, hk⟩ := List.exists_of_kerase hmem
  have hb : b = snapshot := by
    have : s.lookup id = some b := AList.mem_lookup_iff.2 (by rw [hl]; simp)
    simpa [h] using this.symm
  rw [hl, show (s.erase id).entries = s.entries.kerase id from rfl, hk, hb]
  exact List.perm_middle

/-- The sum of the stored sizes. -/
def totalBytes (s : Snapshots) : ℕ := (s.entries.map fun e => e.2.bytes).sum

theorem totalBytes_erase {s : Snapshots} {id : ℕ} {snapshot : Snapshot}
    (h : s.lookup id = some snapshot) : totalBytes s = snapshot.bytes + totalBytes (s.erase id) := by
  simpa [totalBytes] using ((perm_cons_erase h).map fun e => e.2.bytes).sum_eq

theorem totalBytes_insert (s : Snapshots) (id : ℕ) (snapshot : Snapshot) :
    totalBytes (s.insert id snapshot) = snapshot.bytes + totalBytes (s.erase id) := by
  rw [totalBytes, AList.entries_insert, List.map_cons, List.sum_cons]
  rfl

theorem length_erase {s : Snapshots} {id : ℕ} {snapshot : Snapshot}
    (h : s.lookup id = some snapshot) : s.entries.length = (s.erase id).entries.length + 1 := by
  simpa using (perm_cons_erase h).length_eq

theorem remove_eq {id : ℕ} {snapshot : Snapshot} (h : cache.snapshots.lookup id = some snapshot) :
    cache.remove id = { cache with
      snapshots := cache.snapshots.erase id, usedBytes := cache.usedBytes - snapshot.bytes } := by
  simp [remove, h]

theorem remove_length {id : ℕ} (h : id ∈ cache.snapshots) :
    (cache.remove id).snapshots.entries.length < cache.snapshots.entries.length := by
  obtain ⟨snapshot, hs⟩ := Option.isSome_iff_exists.1 (AList.lookup_isSome.2 h)
  rw [remove_eq hs, length_erase hs]
  exact Nat.lt_succ_self _

theorem evictStep_eq_some (h : cache.evictStep order = some cache') :
    ∃ id, id ∈ cache.snapshots ∧ cache' = cache.remove id := by
  unfold evictStep at h
  split at h
  · obtain ⟨id, hid, rfl⟩ := Option.map_eq_some_iff.1 h
    exact ⟨id, mem_of_victim hid, rfl⟩
  · cases h

theorem makeRoomStep_eq_some {bytes : ℕ} (h : cache.makeRoomStep order bytes = some cache') :
    ∃ id, id ∈ cache.snapshots ∧ cache' = cache.remove id := by
  unfold makeRoomStep at h
  split at h
  · rename_i hcond
    cases hv : cache.victim order with
    | none => exact absurd (victim_eq_none_iff.1 hv) hcond.2
    | some id =>
      rw [hv] at h
      exact ⟨id, mem_of_victim hv, by simpa using h.symm⟩
  · cases h

/-- **The loop of `evict` ends.** -/
theorem evict_ends (cache : PrefixCache) (order : IterOrder) :
    Loop (evictStep order) cache (cache.evict order) := by
  refine loop_ends (fun c => c.snapshots.entries.length) ?_ le_rfl
  intro c c' h
  obtain ⟨id, hid, rfl⟩ := evictStep_eq_some h
  exact remove_length hid

/-- **The loop of `store` that makes room ends.** -/
theorem makeRoom_ends (cache : PrefixCache) (order : IterOrder) (bytes : ℕ) :
    Loop (makeRoomStep order bytes) cache (cache.makeRoom order bytes) := by
  refine loop_ends (fun c => c.snapshots.entries.length) ?_ le_rfl
  intro c c' h
  obtain ⟨id, hid, rfl⟩ := makeRoomStep_eq_some h
  exact remove_length hid

/-- Only snapshots were dropped, and the byte counter followed. -/
structure Shrunk (cache cache' : PrefixCache) : Prop where
  rest : cache' = { cache with snapshots := cache'.snapshots, usedBytes := cache'.usedBytes }
  lookup : ∀ id snapshot, cache'.snapshots.lookup id = some snapshot →
    cache.snapshots.lookup id = some snapshot
  used : cache.usedBytes = totalBytes cache.snapshots → cache'.usedBytes = totalBytes cache'.snapshots
  length_le : cache'.snapshots.entries.length ≤ cache.snapshots.entries.length
  used_le : cache'.usedBytes ≤ cache.usedBytes

theorem Shrunk.refl (cache : PrefixCache) : cache.Shrunk cache :=
  ⟨rfl, fun _ _ h => h, id, le_rfl, le_rfl⟩

theorem Shrunk.trans (h : cache.Shrunk cache') (h' : cache'.Shrunk cache'') :
    cache.Shrunk cache'' where
  rest := by
    have := h'.rest
    rw [h.rest] at this
    exact this
  lookup id snapshot hs := h.lookup id snapshot (h'.lookup id snapshot hs)
  used hu := h'.used (h.used hu)
  length_le := h'.length_le.trans h.length_le
  used_le := h'.used_le.trans h.used_le

theorem remove_shrunk (cache : PrefixCache) (id : ℕ) : cache.Shrunk (cache.remove id) := by
  cases hs : cache.snapshots.lookup id with
  | none => rw [show cache.remove id = cache by simp [remove, hs]]; exact .refl cache
  | some snapshot =>
    rw [remove_eq hs]
    refine ⟨rfl, ?_, ?_, ?_, Nat.sub_le _ _⟩
    · intro i s hi
      by_cases h : i = id
      · subst h
        simp [AList.lookup_erase] at hi
      · rwa [AList.lookup_erase_ne h] at hi
    · intro hu
      have := totalBytes_erase hs
      simp only
      omega
    · rw [length_erase hs]
      exact Nat.le_succ _

theorem evict_shrunk (cache : PrefixCache) (order : IterOrder) :
    cache.Shrunk (cache.evict order) := by
  refine (evict_ends cache order).invariant (P := cache.Shrunk) ?_ (.refl cache)
  intro c c' hc h
  obtain ⟨id, -, rfl⟩ := evictStep_eq_some h
  exact hc.trans (remove_shrunk c id)

theorem makeRoom_shrunk (cache : PrefixCache) (order : IterOrder) (bytes : ℕ) :
    cache.Shrunk (cache.makeRoom order bytes) := by
  refine (makeRoom_ends cache order bytes).invariant (P := cache.Shrunk) ?_ (.refl cache)
  intro c c' hc h
  obtain ⟨id, -, rfl⟩ := makeRoomStep_eq_some h
  exact hc.trans (remove_shrunk c id)

/-- Where the loop of `evict` is left, both limits hold, or nothing is stored any more. -/
theorem evict_bound (cache : PrefixCache) (order : IterOrder) :
    (cache.evict order).snapshots.entries.length < cache.maxEntries ∨
      (cache.evict order).snapshots.entries = [] := by
  have hmax : (cache.evict order).maxEntries = cache.maxEntries := by
    rw [(evict_shrunk cache order).rest]
  have hexit := (evict_ends cache order).step_eq_none
  unfold evictStep at hexit
  split at hexit
  · exact .inr (victim_eq_none_iff.1 (Option.map_eq_none_iff.1 hexit))
  · rename_i hcond
    rw [not_or, not_le, hmax] at hcond
    exact .inl hcond.1

/-- Where the loop that makes room is left, there is room, or nothing is stored any more. -/
theorem makeRoom_bound (cache : PrefixCache) (order : IterOrder) (bytes : ℕ) :
    (cache.makeRoom order bytes).usedBytes + bytes ≤ cache.maxBytes ∨
      (cache.makeRoom order bytes).snapshots.entries = [] := by
  have hmax : (cache.makeRoom order bytes).maxBytes = cache.maxBytes := by
    rw [(makeRoom_shrunk cache order bytes).rest]
  have hexit := (makeRoom_ends cache order bytes).step_eq_none
  unfold makeRoomStep at hexit
  split at hexit
  · cases hexit
  · rename_i hcond
    rw [not_and_or, not_lt, not_not, hmax] at hcond
    exact hcond

/-! ## Snapshots -/

/-- **What `store` can do**: nothing, count one more use of the snapshot that is there, or file a
new one after evicting others. -/
theorem store_cases (cache : PrefixCache) (order : IterOrder) (checkpoint : List UInt8)
    (id depth : ℕ) (observations : List FrameObservation) :
    cache.store order checkpoint id depth observations = cache ∨
    (∃ existing, cache.snapshots.lookup id = some existing ∧
      cache.store order checkpoint id depth observations = { cache with
        snapshots := cache.snapshots.insert id { existing with saves := existing.saves + 1 } }) ∨
    (cache.enabled = true ∧ depth ≠ 0 ∧ cache.snapshots.lookup id = none ∧
      checkpoint.length + observationBytes observations ≤ cache.maxBytes ∧
      ∃ room, room = (cache.evict order).makeRoom order
          (checkpoint.length + observationBytes observations) ∧
        cache.store order checkpoint id depth observations = { room with
          usedBytes := room.usedBytes + (checkpoint.length + observationBytes observations)
          snapshots := room.snapshots.insert id ⟨depth, checkpoint, observations,
            checkpoint.length + observationBytes observations, 0⟩ }) := by
  by_cases hguard : !cache.enabled ∨ depth = 0
  · exact .inl (if_pos hguard)
  cases hl : cache.snapshots.lookup id with
  | some existing => exact .inr (.inl ⟨existing, rfl, by simp only [store, if_neg hguard, hl]⟩)
  | none =>
    by_cases hsize : checkpoint.length = 0
    · exact .inl (by simp only [store, if_neg hguard, hl, if_pos hsize])
    by_cases hbytes : cache.maxBytes < checkpoint.length + observationBytes observations
    · exact .inl (by simp only [store, if_neg hguard, hl, if_neg hsize, if_pos hbytes])
    rw [not_lt] at hbytes
    refine .inr (.inr ⟨by simpa using fun h => hguard (.inl h), fun h => hguard (.inr h), rfl,
      hbytes, _, rfl, ?_⟩)
    simp only [store, if_neg hguard, hl, if_neg hsize, if_neg (not_lt.2 hbytes)]

/-- **What `restore` can do**: find nothing, drop a snapshot of another size, or hand out the
snapshot and count the use. -/
theorem restore_cases (cache : PrefixCache) (expectedSize id : ℕ) :
    (cache.snapshots.lookup id = none ∧ cache.restore expectedSize id = (none, cache)) ∨
    (∃ snapshot, cache.snapshots.lookup id = some snapshot ∧
      snapshot.state.length ≠ expectedSize ∧
      cache.restore expectedSize id =
        (none, { cache.remove id with invalidations := cache.invalidations + 1 })) ∨
    (∃ snapshot, cache.snapshots.lookup id = some snapshot ∧
      snapshot.state.length = expectedSize ∧
      cache.restore expectedSize id = (some (snapshot.state, snapshot.depth), { cache with
        snapshots := cache.snapshots.insert id { snapshot with saves := snapshot.saves + 1 }
        hits := cache.hits + 1 })) := by
  unfold restore
  split
  · rename_i hlookup
    exact .inl ⟨hlookup, rfl⟩
  · rename_i snapshot hlookup
    split
    · rename_i hsize
      exact .inr (.inl ⟨snapshot, hlookup, hsize, rfl⟩)
    · rename_i hsize
      exact .inr (.inr ⟨snapshot, hlookup, not_not.1 hsize, rfl⟩)

/-! ## Accounting -/

/-- The books of a cache: the counter, the two limits, and what each snapshot says of itself. -/
structure Accounted (cache : PrefixCache) : Prop where
  used : cache.usedBytes = totalBytes cache.snapshots
  used_le : cache.usedBytes ≤ cache.maxBytes
  length_le : cache.snapshots.entries.length ≤ max 1 cache.maxEntries
  bytes : ∀ id snapshot, cache.snapshots.lookup id = some snapshot →
    snapshot.bytes = snapshot.state.length + observationBytes snapshot.observations
  depth : ∀ id snapshot, cache.snapshots.lookup id = some snapshot →
    snapshot.depth = snapshot.observations.length

theorem Accounted.shrunk (h : cache.Accounted) (hs : cache.Shrunk cache') : cache'.Accounted := by
  have hrest := hs.rest
  have hbytes : cache'.maxBytes = cache.maxBytes := by rw [hrest]
  have hentries : cache'.maxEntries = cache.maxEntries := by rw [hrest]
  refine ⟨hs.used h.used, ?_, ?_, fun id s hl => h.bytes id s (hs.lookup id s hl),
    fun id s hl => h.depth id s (hs.lookup id s hl)⟩
  · rw [hbytes]
    exact hs.used_le.trans h.used_le
  · rw [hentries]
    exact hs.length_le.trans h.length_le

theorem Accounted.clear (cache : PrefixCache) : cache.clear.Accounted where
  used := rfl
  used_le := Nat.zero_le _
  length_le := Nat.zero_le _
  bytes id snapshot h := by simp [PrefixCache.clear] at h
  depth id snapshot h := by simp [PrefixCache.clear] at h

/-- The books do not read the tables or the counters. -/
theorem Accounted.congr (h : cache.Accounted) (hs : cache'.snapshots = cache.snapshots)
    (hu : cache'.usedBytes = cache.usedBytes) (hb : cache'.maxBytes = cache.maxBytes)
    (he : cache'.maxEntries = cache.maxEntries) : cache'.Accounted where
  used := by rw [hu, hs, h.used]
  used_le := by rw [hu, hb]; exact h.used_le
  length_le := by rw [hs, he]; exact h.length_le
  bytes := by rw [hs]; exact h.bytes
  depth := by rw [hs]; exact h.depth

theorem Accounted.onlyTables (h : cache.Accounted) (ht : cache.OnlyTables cache') :
    cache'.Accounted :=
  h.congr (by rw [ht]) (by rw [ht]) (by rw [ht]) (by rw [ht])

/-- A snapshot of an insertion is the inserted one or was there before. -/
theorem lookup_insert_cases {s : Snapshots} {id id' : ℕ} {snapshot snapshot' : Snapshot}
    (h : (s.insert id' snapshot').lookup id = some snapshot) :
    (id = id' ∧ snapshot = snapshot') ∨ (id ≠ id' ∧ s.lookup id = some snapshot) := by
  by_cases hid : id = id'
  · subst hid
    rw [AList.lookup_insert] at h
    exact .inl ⟨rfl, by simpa using h.symm⟩
  · rw [AList.lookup_insert_ne hid] at h
    exact .inr ⟨hid, h⟩

/-- Counting a use of a snapshot leaves the books in order. -/
theorem Accounted.bump (h : cache.Accounted) {id : ℕ} {snapshot : Snapshot}
    (hl : cache.snapshots.lookup id = some snapshot) (saves : ℕ) :
    ({ cache with snapshots := cache.snapshots.insert id { snapshot with saves := saves } } :
      PrefixCache).Accounted where
  used := by
    rw [h.used, totalBytes_erase hl, totalBytes_insert]
  used_le := h.used_le
  length_le := by
    simp only [AList.entries_insert, List.length_cons]
    exact le_of_eq_of_le (length_erase hl).symm h.length_le
  bytes := by
    intro i s hi
    rcases lookup_insert_cases hi with ⟨-, rfl⟩ | ⟨-, hi⟩
    · exact h.bytes id snapshot hl
    · exact h.bytes i s hi
  depth := by
    intro i s hi
    rcases lookup_insert_cases hi with ⟨-, rfl⟩ | ⟨-, hi⟩
    · exact h.depth id snapshot hl
    · exact h.depth i s hi

theorem Accounted.store (h : cache.Accounted) (order : IterOrder) (checkpoint : List UInt8)
    (id : ℕ) (observations : List FrameObservation) :
    (cache.store order checkpoint id observations.length observations).Accounted := by
  rcases store_cases cache order checkpoint id observations.length observations with
    heq | ⟨existing, hl, heq⟩ | ⟨-, -, hl, hbytes, room, hroom, heq⟩ <;> rw [heq]
  · exact h
  · exact h.bump hl _
  -- room was made first, so the new entry fits; `id` is still free, so its size is added once
  · have hev := evict_shrunk cache order
    have hmk := makeRoom_shrunk (cache.evict order) order
      (checkpoint.length + observationBytes observations)
    rw [← hroom] at hmk
    have hbound := makeRoom_bound (cache.evict order) order
      (checkpoint.length + observationBytes observations)
    rw [← hroom] at hbound
    have hacc : room.Accounted := (h.shrunk hev).shrunk hmk
    have hmaxb : room.maxBytes = cache.maxBytes := by rw [(hev.trans hmk).rest]
    have hmaxe : room.maxEntries = cache.maxEntries := by rw [(hev.trans hmk).rest]
    have hevb : (cache.evict order).maxBytes = cache.maxBytes := by rw [hev.rest]
    have hfree : id ∉ room.snapshots := by
      intro hid
      obtain ⟨s, hs⟩ := Option.isSome_iff_exists.1 (AList.lookup_isSome.2 hid)
      rw [(hev.trans hmk).lookup id s hs] at hl
      cases hl
    refine ⟨?_, ?_, ?_, ?_, ?_⟩
    · have := hacc.used
      simp only [totalBytes, AList.entries_insert_of_notMem hfree, List.map_cons, List.sum_cons] at this ⊢
      omega
    · simp only
      rw [hmaxb]
      rcases hbound with hfits | hempty
      · rwa [hevb] at hfits
      · have hzero := hacc.used
        simp only [totalBytes, hempty, List.map_nil, List.sum_nil] at hzero
        omega
    · simp only [AList.entries_insert_of_notMem hfree, List.length_cons]
      rw [hmaxe]
      have hle := hmk.length_le
      rcases evict_bound cache order with hlt | hempty
      · omega
      · simp only [hempty, List.length_nil] at hle
        omega
    · intro i s hi
      rcases lookup_insert_cases hi with ⟨-, rfl⟩ | ⟨-, hi⟩
      · rfl
      · exact hacc.bytes i s hi
    · intro i s hi
      rcases lookup_insert_cases hi with ⟨-, rfl⟩ | ⟨-, hi⟩
      · rfl
      · exact hacc.depth i s hi

theorem Accounted.restore (h : cache.Accounted) (expectedSize id : ℕ) :
    (cache.restore expectedSize id).2.Accounted := by
  rcases restore_cases cache expectedSize id with
    ⟨-, heq⟩ | ⟨snapshot, -, -, heq⟩ | ⟨snapshot, hl, -, heq⟩ <;> rw [heq]
  · exact h
  · exact (h.shrunk (remove_shrunk cache id)).congr rfl rfl rfl rfl
  · exact (h.bump hl _).congr rfl rfl rfl rfl

theorem Accounted.prefixIds (h : cache.Accounted) (case : TestCase) {floor : ℕ}
    (hwf : cache.fresh.table.WF floor) : (cache.prefixIds case).2.Accounted := by
  have hfresh : cache.fresh.Accounted := by
    unfold fresh
    split
    · exact .clear cache
    · exact h
  exact hfresh.onlyTables (prefixIds_spec cache case hwf).1

end PrefixCache

end SemantiST.Engine
