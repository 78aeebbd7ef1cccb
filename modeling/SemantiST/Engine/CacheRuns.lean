import SemantiST.Engine.CacheInvariant

/-!
# Runs of the prefix cache

Sequences of cache operations in any order, with every identity `prefix_ids` gave out kept in a
log.  Each `clear`, also the one `prefix_ids` makes itself, starts a new epoch.
-/

namespace SemantiST.Engine

open Lib

/-! ## Traced runs -/

/-- The operations of a cache.  `execute_with_cache`, the only caller of `store`, stores as many
observations as the prefix is deep (`exists_run_requests`). -/
inductive CacheOp where
  | prefixIds (case : TestCase)
  | restore (expectedSize id : ℕ)
  | store (order : IterOrder) (checkpoint : List UInt8) (id : ℕ)
      (observations : List FrameObservation)
  | clear
  | setCounters (hits savedScans restoreAttempts validations invalidations : ℕ) (enabled : Bool)

/-- One identity given out: when, and for which prefix. -/
structure Issued where
  epoch : ℕ
  initProfile : Text
  shared : Values
  frames : List Frame
  id : ℕ

/-- The prefix positions of `case` with the identities they were given. -/
def issued (epoch : ℕ) (case : TestCase) (ids : List ℕ) : List Issued :=
  ids.zipIdx.map fun p =>
    ⟨epoch, case.initProfile, case.shared, case.frames.take (p.2 + 1), p.1⟩

structure Trace where
  cache : PrefixCache
  epoch : ℕ
  log : List Issued

namespace Trace

def clear (t : Trace) : Trace := { t with cache := t.cache.clear, epoch := t.epoch + 1 }

/-- The `clear` that `prefix_ids` begins with. -/
def freshen (t : Trace) : Trace := if t.cache.overflowed then t.clear else t

def step (t : Trace) : CacheOp → Trace
  | .prefixIds case =>
    { cache := (t.cache.prefixIds case).2
      epoch := t.freshen.epoch
      log := t.log ++ issued t.freshen.epoch case (t.cache.prefixIds case).1 }
  | .restore expectedSize id => { t with cache := (t.cache.restore expectedSize id).2 }
  | .store order checkpoint id observations =>
    { t with cache := t.cache.store order checkpoint id observations.length observations }
  | .clear => t.clear
  | .setCounters hits savedScans restoreAttempts validations invalidations enabled =>
    { t with cache := { t.cache with
        hits := hits
        savedScans := savedScans
        restoreAttempts := restoreAttempts
        validations := validations
        invalidations := invalidations
        enabled := enabled } }

/-- An empty cache with the given limits. -/
def start (maxBytes maxEntries : ℕ) (enabled : Bool) : Trace where
  cache := { maxBytes := maxBytes, maxEntries := maxEntries, enabled := enabled }
  epoch := 0
  log := []

def run (maxBytes maxEntries : ℕ) (enabled : Bool) (ops : List CacheOp) : Trace :=
  ops.foldl step (start maxBytes maxEntries enabled)

/-! ## The invariant -/

/-- Two identities of the log are equal exactly when they were given out in one epoch for one
prefix. -/
def Consistent (log : List Issued) : Prop :=
  ∀ a ∈ log, ∀ b ∈ log, a.id = b.id ↔
    a.epoch = b.epoch ∧ a.initProfile = b.initProfile ∧ a.shared = b.shared ∧ a.frames = b.frames

/-- What a traced run keeps: the tables were filled since the current epoch began, at `floor`; the
identities of this epoch stand for their prefixes and those of earlier ones lie below. -/
structure Inv (t : Trace) (floor : ℕ) : Prop where
  wf : t.cache.table.WF floor
  accounted : t.cache.Accounted
  current : ∀ a ∈ t.log, a.epoch = t.epoch →
    t.cache.table.Denotes a.id (a.initProfile, a.shared) a.frames
  past : ∀ a ∈ t.log, a.epoch ≠ t.epoch → a.epoch < t.epoch ∧ a.id < floor
  consistent : Consistent t.log

variable {t t' : Trace} {floor : ℕ}

theorem inv_start (maxBytes maxEntries : ℕ) (enabled : Bool) :
    (start maxBytes maxEntries enabled).Inv 1 where
  wf := PathTable.wf_empty (t := (start maxBytes maxEntries enabled).cache.table) rfl rfl
  accounted := .clear (start maxBytes maxEntries enabled).cache
  current := by simp [start]
  past := by simp [start]
  consistent := by simp [start, Consistent]

/-- Every identity of the log is below the next one to be issued. -/
theorem Inv.id_lt (h : t.Inv floor) {a : Issued} (ha : a ∈ t.log) : a.id < t.cache.nextId := by
  by_cases he : a.epoch = t.epoch
  · exact h.wf.lt_next _ (h.current a ha he).mem_ids
  · exact (h.past a ha he).2.trans_le h.wf.floor_le_next

theorem Inv.clear (h : t.Inv floor) : t.clear.Inv t.cache.nextId where
  wf := PathTable.wf_empty (t := t.cache.clear.table) rfl rfl
  accounted := .clear t.cache
  current := by
    intro a ha he
    by_cases he' : a.epoch = t.epoch
    · rw [show t.clear.epoch = t.epoch + 1 from rfl] at he
      omega
    · have := (h.past a ha he').1
      rw [show t.clear.epoch = t.epoch + 1 from rfl] at he
      omega
  past := by
    intro a ha _
    refine ⟨?_, h.id_lt ha⟩
    rw [show t.clear.epoch = t.epoch + 1 from rfl]
    by_cases he' : a.epoch = t.epoch
    · omega
    · have := (h.past a ha he').1
      omega
  consistent := h.consistent

theorem Inv.freshen (h : t.Inv floor) : ∃ floor', t.freshen.Inv floor' := by
  unfold Trace.freshen
  split
  · exact ⟨_, h.clear⟩
  · exact ⟨_, h⟩

/-- An operation that leaves the tables alone keeps the invariant if the books stay in order. -/
theorem Inv.sameTable (h : t.Inv floor) (cache : PrefixCache) (ht : cache.table = t.cache.table)
    (hacc : cache.Accounted) : ({ t with cache := cache } : Trace).Inv floor where
  wf := by rw [ht]; exact h.wf
  accounted := hacc
  current a ha he := by rw [ht]; exact h.current a ha he
  past := h.past
  consistent := h.consistent

theorem mem_issued {epoch : ℕ} {case : TestCase} {ids : List ℕ} {a : Issued}
    (h : a ∈ issued epoch case ids) :
    ∃ k, ids[k]? = some a.id ∧
      a = ⟨epoch, case.initProfile, case.shared, case.frames.take (k + 1), a.id⟩ := by
  obtain ⟨⟨id, k⟩, hk, rfl⟩ := List.mem_map.1 h
  exact ⟨k, List.mem_zipIdx_iff_getElem?.1 hk, rfl⟩

theorem Inv.prefixIds (h : t.Inv floor) (case : TestCase) :
    ∃ floor', (t.step (.prefixIds case)).Inv floor' := by
  obtain ⟨floor', hf⟩ := h.freshen
  have hcache : t.freshen.cache = t.cache.fresh := by
    unfold Trace.freshen PrefixCache.fresh
    split <;> rfl
  have hlog : t.freshen.log = t.log := by
    unfold Trace.freshen
    split <;> rfl
  have hwf := hf.wf
  rw [hcache] at hwf
  obtain ⟨-, hwf', hext, -, hden⟩ := PrefixCache.prefixIds_spec t.cache case hwf
  -- every identity of the new log stands for its prefix, or lies below `floor'`
  have hcurrent : ∀ a ∈ (t.step (.prefixIds case)).log, a.epoch = t.freshen.epoch →
      (t.cache.prefixIds case).2.table.Denotes a.id (a.initProfile, a.shared) a.frames := by
    intro a ha he
    rcases List.mem_append.1 ha with ha | ha
    · have := hf.current a (by rwa [hlog]) he
      rw [hcache] at this
      exact this.mono hext
    · obtain ⟨k, hk, hak⟩ := mem_issued ha
      have hka := hden k a.id hk
      rw [hak]
      exact hka
  have hpast : ∀ a ∈ (t.step (.prefixIds case)).log, a.epoch ≠ t.freshen.epoch →
      a ∈ t.log ∧ a.epoch < t.freshen.epoch ∧ a.id < floor' := by
    intro a ha he
    rcases List.mem_append.1 ha with ha | ha
    · exact ⟨ha, hf.past a (by rwa [hlog]) he⟩
    · obtain ⟨k, hk, hak⟩ := mem_issued ha
      exact absurd (by rw [hak]) he
  -- an identity of this epoch against any other
  have hcompare : ∀ a ∈ (t.step (.prefixIds case)).log, a.epoch = t.freshen.epoch →
      ∀ b ∈ (t.step (.prefixIds case)).log, a.id = b.id ↔
        a.epoch = b.epoch ∧ a.initProfile = b.initProfile ∧ a.shared = b.shared ∧
          a.frames = b.frames := by
    intro a ha hea b hb
    by_cases heb : b.epoch = t.freshen.epoch
    · rw [(hcurrent a ha hea).eq_iff hwf' (hcurrent b hb heb), Prod.mk.injEq]
      simp only [hea, heb, true_and, and_assoc]
    · have hlt := (hpast b hb heb).2.2
      have hle := hwf'.floor_le _ (hcurrent a ha hea).mem_ids
      constructor
      · intro hid
        omega
      · rintro ⟨he, -⟩
        exact absurd (he ▸ hea) heb
  refine ⟨floor', hwf', h.accounted.prefixIds case hwf, hcurrent,
    fun a ha he => (hpast a ha he).2, ?_⟩
  intro a ha b hb
  by_cases hea : a.epoch = t.freshen.epoch
  · exact hcompare a ha hea b hb
  by_cases heb : b.epoch = t.freshen.epoch
  · have := hcompare b hb heb a ha
    constructor
    · intro hid
      obtain ⟨h1, h2, h3, h4⟩ := this.1 hid.symm
      exact ⟨h1.symm, h2.symm, h3.symm, h4.symm⟩
    · rintro ⟨h1, h2, h3, h4⟩
      exact (this.2 ⟨h1.symm, h2.symm, h3.symm, h4.symm⟩).symm
  · exact h.consistent a (hpast a ha hea).1 b (hpast b hb heb).1

theorem store_table (cache : PrefixCache) (order : IterOrder) (checkpoint : List UInt8)
    (id depth : ℕ) (observations : List FrameObservation) :
    (cache.store order checkpoint id depth observations).table = cache.table := by
  rcases PrefixCache.store_cases cache order checkpoint id depth observations with
    heq | ⟨_, -, heq⟩ | ⟨-, -, -, -, room, hroom, heq⟩ <;> rw [heq]
  · rfl
  · have hrest := ((PrefixCache.evict_shrunk cache order).trans
      (PrefixCache.makeRoom_shrunk (cache.evict order) order
        (checkpoint.length + observationBytes observations))).rest
    rw [← hroom] at hrest
    rw [hrest]
    rfl

theorem restore_table (cache : PrefixCache) (expectedSize id : ℕ) :
    (cache.restore expectedSize id).2.table = cache.table := by
  rcases PrefixCache.restore_cases cache expectedSize id with
    ⟨-, heq⟩ | ⟨_, -, -, heq⟩ | ⟨_, -, -, heq⟩ <;> rw [heq]
  · rw [(PrefixCache.remove_shrunk cache id).rest]
    rfl
  · rfl

/-- **Every operation keeps the invariant.** -/
theorem Inv.step (h : t.Inv floor) (op : CacheOp) : ∃ floor', (t.step op).Inv floor' := by
  cases op with
  | prefixIds case => exact h.prefixIds case
  | restore expectedSize id =>
    exact ⟨floor, h.sameTable _ (restore_table _ _ _) (h.accounted.restore expectedSize id)⟩
  | store order checkpoint id observations =>
    exact ⟨floor, h.sameTable _ (store_table _ _ _ _ _ _)
      (h.accounted.store order checkpoint id observations)⟩
  | clear => exact ⟨_, h.clear⟩
  | setCounters hits savedScans restoreAttempts validations invalidations enabled =>
    exact ⟨floor, h.sameTable _ rfl (h.accounted.congr rfl rfl rfl rfl)⟩

theorem inv_run (maxBytes maxEntries : ℕ) (enabled : Bool) (ops : List CacheOp) :
    ∃ floor, (run maxBytes maxEntries enabled ops).Inv floor :=
  List.foldlRecOn (motive := fun t : Trace => ∃ floor, t.Inv floor) ops step
    ⟨1, inv_start maxBytes maxEntries enabled⟩
    fun _ ⟨_, h⟩ op _ => h.step op

/-- **Identity and accounting over any run.**  Of two identities given out, one equals the other
exactly if they belong to one epoch and to one prefix; the books are in order; and the loops that
evict come to an end, from any cache. -/
theorem run_identity_accounting (maxBytes maxEntries : ℕ) (enabled : Bool) (ops : List CacheOp) :
    Consistent (run maxBytes maxEntries enabled ops).log ∧
    (run maxBytes maxEntries enabled ops).cache.Accounted ∧
    ∀ (cache : PrefixCache) (order : IterOrder) (bytes : ℕ),
      Loop (PrefixCache.evictStep order) cache (cache.evict order) ∧
      Loop (PrefixCache.makeRoomStep order bytes) cache (cache.makeRoom order bytes) := by
  obtain ⟨floor, h⟩ := inv_run maxBytes maxEntries enabled ops
  exact ⟨h.consistent, h.accounted, fun cache order bytes =>
    ⟨PrefixCache.evict_ends cache order, PrefixCache.makeRoom_ends cache order bytes⟩⟩

end Trace

end SemantiST.Engine
