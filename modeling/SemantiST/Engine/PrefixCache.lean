import Mathlib.Data.List.AList
import Mathlib.Data.List.MinMax
import SemantiST.Engine.Frames
import SemantiST.Lib.Intern
import SemantiST.Lib.Loop

/-!
# The prefix cache

`PrefixCache` of `fuzzer/engine/src/v3.rs`: prefixes of testcases are interned frame by frame,
and native states are kept under the identity of the prefix that produced them.
-/

namespace SemantiST.Engine

open Lib

/-! ## Observations and snapshots -/

structure FrameObservation where
  frameIndex : ℕ
  logicalTimeNs : ℕ
  values : Std.ExtTreeMap Text ℤ compare
  goalHits : List ℕ
  deriving DecidableEq

structure Snapshot where
  depth : ℕ
  state : List UInt8
  observations : List FrameObservation
  bytes : ℕ
  saves : ℕ
  deriving DecidableEq

/-- `observation_bytes`: 64 bytes for the record, 16 for each value, 4 for each hit. -/
def observationBytes (observations : List FrameObservation) : ℕ :=
  (observations.map fun entry =>
    64 + (entry.values.toList.map fun v => utf8Length v.1 + 16).sum + 4 * entry.goalHits.length).sum

/-- `HashMap<u64, Snapshot>`. -/
abbrev Snapshots := AList fun _ : ℕ => Snapshot

/-- The order in which a hash map is iterated: any order of its entries. -/
structure IterOrder where
  order : List (Sigma fun _ : ℕ => Snapshot) → List (Sigma fun _ : ℕ => Snapshot)
  perm : ∀ l, (order l).Perm l

instance : Inhabited IterOrder := ⟨⟨id, fun l => .refl l⟩⟩

/-! ## The cache -/

structure PrefixRoot where
  id : ℕ
  initProfile : Text
  shared : Values

structure PrefixNode where
  id : ℕ
  parentId : ℕ
  frame : Frame

structure PrefixCache where
  snapshots : Snapshots := ∅
  roots : List PrefixRoot := []
  nodes : List PrefixNode := []
  nextId : ℕ := 1
  maxBytes : ℕ := 256 * 1024 * 1024
  maxEntries : ℕ := 4096
  usedBytes : ℕ := 0
  hits : ℕ := 0
  savedScans : ℕ := 0
  restoreAttempts : ℕ := 0
  validations : ℕ := 0
  invalidations : ℕ := 0
  enabled : Bool := true

namespace PrefixCache

def clear (cache : PrefixCache) : PrefixCache :=
  { cache with snapshots := ∅, roots := [], nodes := [], usedBytes := 0 }

/-! ### Prefix identities -/

def rootId (cache : PrefixCache) (initProfile : Text) (shared : Values) : ℕ × PrefixCache :=
  match cache.roots.find? fun root => root.initProfile = initProfile ∧ root.shared = shared with
  | some root => (root.id, cache)
  | none => (cache.nextId, { cache with
      roots := cache.roots ++ [⟨cache.nextId, initProfile, shared⟩], nextId := cache.nextId + 1 })

def nodeId (cache : PrefixCache) (parentId : ℕ) (frame : Frame) : ℕ × PrefixCache :=
  match cache.nodes.find? fun node => node.parentId = parentId ∧ node.frame = frame with
  | some node => (node.id, cache)
  | none => (cache.nextId, { cache with
      nodes := cache.nodes ++ [⟨cache.nextId, parentId, frame⟩], nextId := cache.nextId + 1 })

def nodeIds (cache : PrefixCache) (parentId : ℕ) : List Frame → List ℕ × PrefixCache
  | [] => ([], cache)
  | frame :: frames =>
    let (id, cache) := cache.nodeId parentId frame
    let (ids, cache) := cache.nodeIds id frames
    (id :: ids, cache)

/-- The tables have outgrown the entry limit, so that the next `prefix_ids` starts over. -/
def overflowed (cache : PrefixCache) : Prop := cache.maxEntries * 16 < cache.nodes.length

instance (cache : PrefixCache) : Decidable cache.overflowed := by
  unfold overflowed; infer_instance

def prefixIds (cache : PrefixCache) (case : TestCase) : List ℕ × PrefixCache :=
  let cache := if cache.overflowed then cache.clear else cache
  let (rootId, cache) := cache.rootId case.initProfile case.shared
  cache.nodeIds rootId case.frames

/-! ### Snapshots -/

/-- `min_by_key(saves)`: the first entry of the iteration with the fewest saves. -/
def victim (order : IterOrder) (cache : PrefixCache) : Option ℕ :=
  ((order.order cache.snapshots.entries).argmin fun e => e.2.saves).map Sigma.fst

def remove (cache : PrefixCache) (id : ℕ) : PrefixCache :=
  match cache.snapshots.lookup id with
  | some snapshot => { cache with
      snapshots := cache.snapshots.erase id, usedBytes := cache.usedBytes - snapshot.bytes }
  | none => cache

/-- One round of the loop of `evict`. -/
def evictStep (order : IterOrder) (cache : PrefixCache) : Option PrefixCache :=
  if cache.maxEntries ≤ cache.snapshots.entries.length ∨ cache.maxBytes < cache.usedBytes then
    (cache.victim order).map cache.remove
  else none

/-- One round of the loop of `store` that makes room for `bytes` more bytes.  A round that finds
no victim would change nothing and be repeated for ever. -/
def makeRoomStep (order : IterOrder) (bytes : ℕ) (cache : PrefixCache) : Option PrefixCache :=
  if cache.maxBytes < cache.usedBytes + bytes ∧ cache.snapshots.entries ≠ [] then
    some (((cache.victim order).map cache.remove).getD cache)
  else none

def evict (order : IterOrder) (cache : PrefixCache) : PrefixCache :=
  loop (evictStep order) cache.snapshots.entries.length cache

def makeRoom (order : IterOrder) (bytes : ℕ) (cache : PrefixCache) : PrefixCache :=
  loop (makeRoomStep order bytes) cache.snapshots.entries.length cache

/-- `store`; `checkpoint` is the state the harness writes, of `semantist_state_size` bytes. -/
def store (cache : PrefixCache) (order : IterOrder) (checkpoint : List UInt8) (id depth : ℕ)
    (observations : List FrameObservation) : PrefixCache :=
  if !cache.enabled ∨ depth = 0 then cache
  else
    match cache.snapshots.lookup id with
    | some existing => { cache with
        snapshots := cache.snapshots.insert id { existing with saves := existing.saves + 1 } }
    | none =>
      if checkpoint.length = 0 then cache
      else
        let bytes := checkpoint.length + observationBytes observations
        if cache.maxBytes < bytes then cache
        else
          let cache := (cache.evict order).makeRoom order bytes
          { cache with
            usedBytes := cache.usedBytes + bytes
            snapshots := cache.snapshots.insert id ⟨depth, checkpoint, observations, bytes, 0⟩ }

/-- `restore`: the bytes handed to the harness and the depth, or nothing when there is no
snapshot of the expected size. -/
def restore (cache : PrefixCache) (expectedSize id : ℕ) : Option (List UInt8 × ℕ) × PrefixCache :=
  match cache.snapshots.lookup id with
  | none => (none, cache)
  | some snapshot =>
    if snapshot.state.length ≠ expectedSize then
      (none, { cache.remove id with invalidations := cache.invalidations + 1 })
    else
      (some (snapshot.state, snapshot.depth), { cache with
        snapshots := cache.snapshots.insert id { snapshot with saves := snapshot.saves + 1 }
        hits := cache.hits + 1 })

end PrefixCache

end SemantiST.Engine
