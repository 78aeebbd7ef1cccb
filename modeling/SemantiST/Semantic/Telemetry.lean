import Mathlib.Data.List.Induction
import SemantiST.Lib.Bytes
import SemantiST.Lib.Rust

/-!
# Telemetry of the semantic runtime

The writer in `compiler/instrumentation/runtime/semantic_coverage.c` and the reader in
`fuzzer/semantic/observers.rs`, over the bytes that they share.
-/

namespace SemantiST.Semantic

open Lib

/-! ## The buffer -/

def telemetryEvents : ℕ := 4096
def telemetryStates : ℕ := 512
def stateBase : ℕ := 16 + telemetryEvents * 8
def telemetrySize : ℕ := 16 + telemetryEvents * 8 + telemetryStates * 16

/-- The memory of a `struct semantist_telemetry`. -/
structure TelemetryBuffer where
  bytes : List UInt8
  size : bytes.length = telemetrySize

/-- The bytes at `offset` as a number; past the end of the buffer they read as zero. -/
def loadAt (order : ByteOrder) (bytes : List UInt8) (offset w : ℕ) : ℕ :=
  ((sliceAt bytes offset w).map order.decode).getD 0

def u32At (order : ByteOrder) (bytes : List UInt8) (offset : ℕ) : UInt32 :=
  UInt32.ofNat (loadAt order bytes offset 4)

def u64At (order : ByteOrder) (bytes : List UInt8) (offset : ℕ) : UInt64 :=
  UInt64.ofNat (loadAt order bytes offset 8)

namespace TelemetryBuffer

variable (order : ByteOrder)

def store (t : TelemetryBuffer) (offset : ℕ) (word : List UInt8)
    (h : offset + word.length ≤ telemetrySize) : TelemetryBuffer where
  bytes := storeAt t.bytes offset word
  size := by rw [length_storeAt (by rw [t.size]; exact h), t.size]

def store32 (t : TelemetryBuffer) (offset : ℕ) (x : UInt32) (h : offset + 4 ≤ telemetrySize) :
    TelemetryBuffer :=
  t.store offset (order.encode 4 x.toNat) (by rw [order.length_encode]; exact h)

def store64 (t : TelemetryBuffer) (offset : ℕ) (x : UInt64) (h : offset + 8 ≤ telemetrySize) :
    TelemetryBuffer :=
  t.store offset (order.encode 8 x.toNat) (by rw [order.length_encode]; exact h)

def load32 (t : TelemetryBuffer) (offset : ℕ) : UInt32 := u32At order t.bytes offset
def load64 (t : TelemetryBuffer) (offset : ℕ) : UInt64 := u64At order t.bytes offset

section Words

variable {order : ByteOrder} {t : TelemetryBuffer} {offset offset' : ℕ}

theorem loadAt_store_of_disjoint {word : List UInt8} {w : ℕ}
    (h : offset + word.length ≤ telemetrySize)
    (hdisjoint : offset' + w ≤ offset ∨ offset + word.length ≤ offset') :
    loadAt order (t.store offset word h).bytes offset' w = loadAt order t.bytes offset' w := by
  unfold loadAt store
  rw [sliceAt_storeAt_of_disjoint (by rw [t.size]; exact h) hdisjoint]

theorem loadAt_store {n w : ℕ} (h : offset + (order.encode w n).length ≤ telemetrySize)
    (hn : n < 256 ^ w) : loadAt order (t.store offset (order.encode w n) h).bytes offset w = n := by
  have hslice : sliceAt (storeAt t.bytes offset (order.encode w n)) offset
      (order.encode w n).length = some (order.encode w n) := sliceAt_storeAt (by rw [t.size]; exact h)
  rw [order.length_encode] at hslice
  rw [loadAt, store, hslice, Option.map_some, Option.getD_some, order.decode_encode hn]

@[simp] theorem load32_store32 {x : UInt32} (h : offset + 4 ≤ telemetrySize) :
    (t.store32 order offset x h).load32 order offset = x := by
  have hx := x.toNat_lt
  rw [load32, u32At, store32, loadAt_store _ (by omega), UInt32.ofNat_toNat]

@[simp] theorem load64_store64 {x : UInt64} (h : offset + 8 ≤ telemetrySize) :
    (t.store64 order offset x h).load64 order offset = x := by
  have hx := x.toNat_lt
  rw [load64, u64At, store64, loadAt_store _ (by omega), UInt64.ofNat_toNat]

theorem load32_store32_of_disjoint {x : UInt32} (h : offset + 4 ≤ telemetrySize)
    (hdisjoint : offset' + 4 ≤ offset ∨ offset + 4 ≤ offset') :
    (t.store32 order offset x h).load32 order offset' = t.load32 order offset' := by
  unfold load32 u32At store32
  rw [loadAt_store_of_disjoint _ (by rw [order.length_encode]; exact hdisjoint)]

theorem load64_store32_of_disjoint {x : UInt32} (h : offset + 4 ≤ telemetrySize)
    (hdisjoint : offset' + 8 ≤ offset ∨ offset + 4 ≤ offset') :
    (t.store32 order offset x h).load64 order offset' = t.load64 order offset' := by
  unfold load64 u64At store32
  rw [loadAt_store_of_disjoint _ (by rw [order.length_encode]; exact hdisjoint)]

theorem load32_store64_of_disjoint {x : UInt64} (h : offset + 8 ≤ telemetrySize)
    (hdisjoint : offset' + 4 ≤ offset ∨ offset + 8 ≤ offset') :
    (t.store64 order offset x h).load32 order offset' = t.load32 order offset' := by
  unfold load32 u32At store64
  rw [loadAt_store_of_disjoint _ (by rw [order.length_encode]; exact hdisjoint)]

theorem load64_store64_of_disjoint {x : UInt64} (h : offset + 8 ≤ telemetrySize)
    (hdisjoint : offset' + 8 ≤ offset ∨ offset + 8 ≤ offset') :
    (t.store64 order offset x h).load64 order offset' = t.load64 order offset' := by
  unfold load64 u64At store64
  rw [loadAt_store_of_disjoint _ (by rw [order.length_encode]; exact hdisjoint)]

end Words

/-! ## The writer -/

/-- The telemetry part of `__semantist_semantic_hit`. -/
def hit (t : TelemetryBuffer) (runtimeId : UInt32) : TelemetryBuffer :=
  let t := t.store32 order 12 (t.load32 order 12 ||| 4) (by decide)
  let index := t.load32 order 4
  if h : index.toNat < telemetryEvents then
    have hevents : index.toNat < 4096 := h
    let t := t.store32 order (16 + index.toNat * 8) runtimeId
      (by unfold telemetrySize telemetryEvents telemetryStates; omega)
    let scanCount := t.load32 order 0
    let t := t.store32 order (20 + index.toNat * 8) (if scanCount ≠ 0 then scanCount - 1 else 0)
      (by unfold telemetrySize telemetryEvents telemetryStates; omega)
    t.store32 order 4 (index + 1) (by decide)
  else t.store32 order 12 (t.load32 order 12 ||| 1) (by decide)

/-- The telemetry part of `__semantist_semantic_cycle`. -/
def cycle (t : TelemetryBuffer) : TelemetryBuffer :=
  if t.load32 order 0 < 0xFFFFFFFF then
    let t := t.store32 order 12 (t.load32 order 12 ||| 4) (by decide)
    t.store32 order 0 (t.load32 order 0 + 1) (by decide)
  else t

/-- `__semantist_semantic_state`. -/
def state (t : TelemetryBuffer) (before after : UInt64) : TelemetryBuffer :=
  let t := t.store32 order 12 (t.load32 order 12 ||| 4) (by decide)
  let index := t.load32 order 8
  if h : index.toNat < telemetryStates then
    have hstates : index.toNat < 512 := h
    let t := t.store64 order (stateBase + index.toNat * 16) before
      (by unfold stateBase telemetrySize telemetryEvents telemetryStates; omega)
    let t := t.store64 order (stateBase + index.toNat * 16 + 8) after
      (by unfold stateBase telemetrySize telemetryEvents telemetryStates; omega)
    t.store32 order 8 (index + 1) (by decide)
  else t.store32 order 12 (t.load32 order 12 ||| 2) (by decide)

/-- Clearing the header before an execution. -/
def preExec (t : TelemetryBuffer) : TelemetryBuffer :=
  t.store 0 (List.replicate 16 0) (by decide)

end TelemetryBuffer

/-- The semantic runtime of the target: its coverage map, the number of the cycle and the telemetry. -/
structure SemanticCoverage where
  semanticMap : Option (List UInt8)
  mapSize : ℕ
  cycleId : UInt32
  telemetry : Option TelemetryBuffer

namespace SemanticCoverage

variable (order : ByteOrder)

def hit (s : SemanticCoverage) (runtimeId : UInt32) : SemanticCoverage :=
  { s with
    semanticMap :=
      if runtimeId.toNat < s.mapSize then
        s.semanticMap.map fun map => map.modify runtimeId.toNat fun value =>
          if value = 255 then 255 else value + 1
      else s.semanticMap
    telemetry := s.telemetry.map fun t => t.hit order runtimeId }

def hazard (s : SemanticCoverage) (runtimeId : UInt32) (violation : UInt8) : SemanticCoverage :=
  if violation ≠ 0 then s.hit order runtimeId else s

def cycle (s : SemanticCoverage) (cycle : UInt32) : SemanticCoverage :=
  { s with cycleId := cycle, telemetry := s.telemetry.map (TelemetryBuffer.cycle order) }

def reset (s : SemanticCoverage) : SemanticCoverage := { s with cycleId := 0 }

def state (s : SemanticCoverage) (before after : UInt64) : SemanticCoverage :=
  { s with telemetry := s.telemetry.map fun t => t.state order before after }

end SemanticCoverage

/-- A call of the target to its semantic runtime. -/
inductive TelemetryCall where
  | hit (runtimeId : UInt32)
  | cycle (cycle : UInt32)
  | state (before after : UInt64)

def SemanticCoverage.call (order : ByteOrder) (s : SemanticCoverage) : TelemetryCall → SemanticCoverage
  | .hit runtimeId => s.hit order runtimeId
  | .cycle cycle => s.cycle order cycle
  | .state before after => s.state order before after

/-! ## The reader -/

inductive StateSignature where
  | state (signature : UInt64)
  | transition (signature : UInt64)
  deriving DecidableEq

structure SemanticTelemetry where
  scanCount : UInt32 := 0
  orderedRuntimeIds : List UInt32 := []
  cycleEvents : List (UInt32 × ℤ) := []
  stateSignatures : List StateSignature := []
  orderedComplete : Bool := false
  truncated : Bool := false

def maxExecutionStateSignatures : ℕ := 256

def rotateLeft (x : UInt64) (n : UInt64) : UInt64 := (x <<< n) ||| (x >>> (64 - n))

/-- The signatures of one recorded state, with their kinds. -/
def signaturesOf (before after : UInt64) : List (UInt8 × UInt64) :=
  [(0, before), (0, after), (1, rotateLeft before 17 ^^^ after)]

def signature (kind : UInt8) (x : UInt64) : StateSignature :=
  if kind = 0 then .state x else .transition x

/-- A signature is pushed unless it was seen before or there are enough of them. -/
def pushSignature (acc : List StateSignature × List (UInt8 × UInt64)) (key : UInt8 × UInt64) :
    List StateSignature × List (UInt8 × UInt64) :=
  if acc.1.length < maxExecutionStateSignatures ∧ key ∉ acc.2 then
    (acc.1 ++ [signature key.1 key.2], key :: acc.2)
  else acc

def fitsI32 (x : UInt32) : Option ℤ := if x.toNat < 2 ^ 31 then some x.toNat else none

def readSemanticTelemetry (order : ByteOrder) (bytes : List UInt8) : SemanticTelemetry :=
  let eventCount := (u32At order bytes 4).toNat
  let stateCount := (u32At order bytes 8).toNat
  let flags := u32At order bytes 12
  let events := (List.range (min eventCount telemetryEvents)).map fun event =>
    (u32At order bytes (16 + event * 8), u32At order bytes (20 + event * 8))
  let states := (List.range (min stateCount telemetryStates)).map fun state =>
    (u64At order bytes (stateBase + state * 16), u64At order bytes (stateBase + state * 16 + 8))
  { scanCount := u32At order bytes 0
    orderedRuntimeIds := events.map Prod.fst
    cycleEvents := events.filterMap fun (runtimeId, cycle) =>
      (fitsI32 cycle).map fun cycle => (runtimeId, cycle)
    stateSignatures :=
      (states.foldl (fun acc state => (signaturesOf state.1 state.2).foldl pushSignature acc)
        ([], [])).1
    orderedComplete := flags &&& 4 ≠ 0 ∧ flags &&& 1 = 0 ∧ eventCount ≤ telemetryEvents
    truncated := flags &&& 3 ≠ 0 ∨ telemetryEvents < eventCount ∨ telemetryStates < stateCount }

/-! ## What the calls amount to -/

/-- The number of scans that the calls begin. -/
def cycles : List TelemetryCall → ℕ
  | [] => 0
  | .hit _ :: calls => cycles calls
  | .cycle _ :: calls => cycles calls + 1
  | .state _ _ :: calls => cycles calls

/-- The index of the current scan after `n` calls of `cycle`. -/
def scanIndex (n : ℕ) : UInt32 := UInt32.ofNat (min n u32Max - 1)

/-- The hits of the calls, each with the scan in which it happens, when `n` scans went before. -/
def hitsFrom : ℕ → List TelemetryCall → List (UInt32 × UInt32)
  | _, [] => []
  | n, .hit runtimeId :: calls => (runtimeId, scanIndex n) :: hitsFrom n calls
  | n, .cycle _ :: calls => hitsFrom (n + 1) calls
  | n, .state _ _ :: calls => hitsFrom n calls

/-- The hits of an execution. -/
def hits (calls : List TelemetryCall) : List (UInt32 × UInt32) := hitsFrom 0 calls

/-- The states of an execution. -/
def states : List TelemetryCall → List (UInt64 × UInt64)
  | [] => []
  | .hit _ :: calls => states calls
  | .cycle _ :: calls => states calls
  | .state before after :: calls => (before, after) :: states calls

/-- The flags that the calls leave: some call happened, a hit was dropped, a state was dropped. -/
def flagsOf (calls : List TelemetryCall) : UInt32 :=
  (if calls = [] then 0 else 4) ||| (if telemetryEvents < (hits calls).length then 1 else 0) |||
    if telemetryStates < (states calls).length then 2 else 0

theorem cycles_append (calls calls' : List TelemetryCall) :
    cycles (calls ++ calls') = cycles calls + cycles calls' := by
  induction calls with
  | nil => simp [cycles]
  | cons call calls ih =>
    cases call with
    | hit _ => exact ih
    | cycle _ =>
      rw [List.cons_append, cycles, cycles, ih]
      omega
    | state _ _ => exact ih

theorem hitsFrom_append (n : ℕ) (calls calls' : List TelemetryCall) :
    hitsFrom n (calls ++ calls') = hitsFrom n calls ++ hitsFrom (n + cycles calls) calls' := by
  induction calls generalizing n with
  | nil => simp [hitsFrom, cycles]
  | cons call calls ih =>
    cases call with
    | hit _ => rw [List.cons_append, hitsFrom, hitsFrom, cycles, ih, List.cons_append]
    | cycle _ =>
      rw [List.cons_append, hitsFrom, hitsFrom, cycles, ih]
      congr 2
      omega
    | state _ _ => rw [List.cons_append, hitsFrom, hitsFrom, cycles, ih]

theorem states_append (calls calls' : List TelemetryCall) :
    states (calls ++ calls') = states calls ++ states calls' := by
  induction calls with
  | nil => rfl
  | cons call calls ih =>
    cases call with
    | hit _ => exact ih
    | cycle _ => exact ih
    | state _ _ => rw [List.cons_append, states, states, ih, List.cons_append]

section Concat

variable (calls : List TelemetryCall)

@[simp] theorem cycles_hit (runtimeId : UInt32) : cycles (calls ++ [.hit runtimeId]) = cycles calls := by
  rw [cycles_append]
  rfl

@[simp] theorem cycles_cycle (id : UInt32) : cycles (calls ++ [.cycle id]) = cycles calls + 1 := by
  rw [cycles_append]
  rfl

@[simp] theorem cycles_state (before after : UInt64) :
    cycles (calls ++ [.state before after]) = cycles calls := by
  rw [cycles_append]
  rfl

@[simp] theorem hits_hit (runtimeId : UInt32) :
    hits (calls ++ [.hit runtimeId]) = hits calls ++ [(runtimeId, scanIndex (cycles calls))] := by
  rw [hits, hitsFrom_append, Nat.zero_add]
  rfl

@[simp] theorem hits_cycle (id : UInt32) : hits (calls ++ [.cycle id]) = hits calls := by
  rw [hits, hitsFrom_append]
  exact List.append_nil _

@[simp] theorem hits_state (before after : UInt64) :
    hits (calls ++ [.state before after]) = hits calls := by
  rw [hits, hitsFrom_append]
  exact List.append_nil _

@[simp] theorem states_hit (runtimeId : UInt32) : states (calls ++ [.hit runtimeId]) = states calls := by
  rw [states_append]
  exact List.append_nil _

@[simp] theorem states_cycle (id : UInt32) : states (calls ++ [.cycle id]) = states calls := by
  rw [states_append]
  exact List.append_nil _

@[simp] theorem states_state (before after : UInt64) :
    states (calls ++ [.state before after]) = states calls ++ [(before, after)] := by
  rw [states_append]
  rfl

end Concat

/-- **What the buffer holds** after the calls. -/
structure Holds (order : ByteOrder) (t : TelemetryBuffer) (calls : List TelemetryCall) : Prop where
  scanCount : t.load32 order 0 = UInt32.ofNat (min (cycles calls) u32Max)
  eventCount : t.load32 order 4 = UInt32.ofNat (min (hits calls).length telemetryEvents)
  stateCount : t.load32 order 8 = UInt32.ofNat (min (states calls).length telemetryStates)
  flags : t.load32 order 12 = flagsOf calls
  eventSlot : ∀ i < telemetryEvents, ∀ e, (hits calls)[i]? = some e →
    (t.load32 order (16 + i * 8), t.load32 order (20 + i * 8)) = e
  stateSlot : ∀ i < telemetryStates, ∀ e, (states calls)[i]? = some e →
    (t.load64 order (stateBase + i * 16), t.load64 order (stateBase + i * 16 + 8)) = e

section Calls

variable {order : ByteOrder} {t : TelemetryBuffer} {calls : List TelemetryCall}

open TelemetryBuffer

theorem load32_preExec {offset : ℕ} (h : offset + 4 ≤ 16) : t.preExec.load32 order offset = 0 := by
  have hsize := t.size
  have hslice : sliceAt t.preExec.bytes offset 4 = some (List.replicate 4 0) := by
    have hlength := t.preExec.size
    have hbytes : t.preExec.bytes = List.replicate 16 0 ++ t.bytes.drop 16 := rfl
    rw [sliceAt, if_pos (by rw [hlength, telemetrySize]; omega), hbytes,
      List.drop_append_of_le_length (by rw [List.length_replicate]; omega),
      List.drop_replicate, List.take_append_of_le_length (by rw [List.length_replicate]; omega),
      List.take_replicate]
    congr 2
    omega
  have hzero : order.decode (List.replicate 4 0) = 0 := by
    cases order with
    | little => rfl
    | big => rfl
  rw [load32, u32At, loadAt, hslice, Option.map_some, Option.getD_some, hzero]
  rfl

theorem holds_preExec (t : TelemetryBuffer) : Holds order t.preExec [] where
  scanCount := load32_preExec (by omega)
  eventCount := load32_preExec (by omega)
  stateCount := load32_preExec (by omega)
  flags := load32_preExec (by omega)
  eventSlot _ _ _ h := nomatch h
  stateSlot _ _ _ h := nomatch h

theorem Holds.eventIndex (h : Holds order t calls) :
    (t.load32 order 4).toNat = min (hits calls).length telemetryEvents := by
  rw [h.eventCount, UInt32.toNat_ofNat']
  unfold telemetryEvents
  omega

theorem Holds.stateIndex (h : Holds order t calls) :
    (t.load32 order 8).toNat = min (states calls).length telemetryStates := by
  rw [h.stateCount, UInt32.toNat_ofNat']
  unfold telemetryStates
  omega

/-- The flags after a call: the telemetry is active, and nothing else unless the call is dropped. -/
theorem flagsOf_concat {call : TelemetryCall} (h : (hits (calls ++ [call])).length ≤ telemetryEvents ∨
      hits (calls ++ [call]) = hits calls)
    (h' : (states (calls ++ [call])).length ≤ telemetryStates ∨
      states (calls ++ [call]) = states calls)
    (hhits : (hits calls).length ≤ (hits (calls ++ [call])).length)
    (hstates : (states calls).length ≤ (states (calls ++ [call])).length) :
    flagsOf (calls ++ [call]) = flagsOf calls ||| 4 := by
  have hevents : telemetryEvents < (hits (calls ++ [call])).length ↔
      telemetryEvents < (hits calls).length := by
    rcases h with h | h
    · omega
    · rw [h]
  have hcount : telemetryStates < (states (calls ++ [call])).length ↔
      telemetryStates < (states calls).length := by
    rcases h' with h' | h'
    · omega
    · rw [h']
  have hne : calls ++ [call] ≠ [] := List.append_ne_nil_of_right_ne_nil _ (List.cons_ne_nil _ _)
  simp only [flagsOf, hevents, hcount, if_neg hne]
  split_ifs <;> rfl

theorem flagsOf_hit_dropped (h : telemetryEvents ≤ (hits calls).length) (runtimeId : UInt32) :
    flagsOf (calls ++ [.hit runtimeId]) = flagsOf calls ||| 4 ||| 1 := by
  have hne : calls ++ [TelemetryCall.hit runtimeId] ≠ [] :=
    List.append_ne_nil_of_right_ne_nil _ (List.cons_ne_nil _ _)
  have hdropped : telemetryEvents < (hits (calls ++ [.hit runtimeId])).length := by
    rw [hits_hit, List.length_append, List.length_singleton]
    omega
  simp only [flagsOf, states_hit, if_neg hne, if_pos hdropped]
  split_ifs <;> rfl

theorem flagsOf_state_dropped (h : telemetryStates ≤ (states calls).length) (before after : UInt64) :
    flagsOf (calls ++ [.state before after]) = flagsOf calls ||| 4 ||| 2 := by
  have hne : calls ++ [TelemetryCall.state before after] ≠ [] :=
    List.append_ne_nil_of_right_ne_nil _ (List.cons_ne_nil _ _)
  have hdropped : telemetryStates < (states (calls ++ [.state before after])).length := by
    rw [states_state, List.length_append, List.length_singleton]
    omega
  simp only [flagsOf, hits_state, if_neg hne, if_pos hdropped]
  split_ifs <;> rfl

/-- Once a scan was begun, the telemetry is active. -/
theorem flagsOf_cycles (h : cycles calls ≠ 0) : flagsOf calls ||| 4 = flagsOf calls := by
  have hne : calls ≠ [] := by
    rintro rfl
    exact h rfl
  simp only [flagsOf, if_neg hne]
  split_ifs <;> rfl

theorem Holds.scanIndex (h : Holds order t calls) : (if t.load32 order 0 ≠ 0 then
    t.load32 order 0 - 1 else 0) = scanIndex (cycles calls) := by
  rw [h.scanCount]
  generalize hn : min (cycles calls) u32Max = n
  have htop : n ≤ u32Max := by omega
  unfold u32Max at htop
  rw [Semantic.scanIndex, hn]
  have htoNat : (UInt32.ofNat n).toNat = n := by
    rw [UInt32.toNat_ofNat']
    omega
  by_cases hzero : n = 0
  · subst hzero
    rfl
  · rw [if_pos (by rw [Ne, ← UInt32.toNat_inj, htoNat]; exact hzero)]
    apply UInt32.toNat_inj.1
    rw [UInt32.toNat_sub_of_le _ _ (by rw [UInt32.le_iff_toNat_le, htoNat, UInt32.toNat_one]; omega),
      htoNat, UInt32.toNat_ofNat', UInt32.toNat_one]
    omega

theorem ofNat_succ {x : UInt32} {n : ℕ} (h : x.toNat = n) :
    x + 1 = UInt32.ofNat (n + 1) := by
  apply UInt32.toNat_inj.1
  rw [UInt32.toNat_add, UInt32.toNat_ofNat', h, UInt32.toNat_one]

theorem Holds.hit (h : Holds order t calls) (runtimeId : UInt32) :
    Holds order (t.hit order runtimeId) (calls ++ [.hit runtimeId]) := by
  have hindex := h.eventIndex
  have hcycle := h.scanIndex
  unfold telemetryEvents at hindex
  unfold TelemetryBuffer.hit
  simp (disch := omega) only [load32_store32_of_disjoint, hcycle, load32_store32]
  by_cases hroom : (hits calls).length < 4096
  · have hk : (t.load32 order 4).toNat = (hits calls).length := by omega
    have hlt : (t.load32 order 4).toNat < telemetryEvents := by
      unfold telemetryEvents
      omega
    rw [dif_pos hlt]
    constructor
    case scanCount =>
      simp (disch := omega) only [load32_store32_of_disjoint, cycles_hit]
      exact h.scanCount
    case eventCount =>
      rw [load32_store32, ofNat_succ hk, hits_hit, List.length_append,
        List.length_singleton, telemetryEvents, Nat.min_eq_left (by omega)]
    case stateCount =>
      simp (disch := omega) only [load32_store32_of_disjoint, states_hit]
      exact h.stateCount
    case flags =>
      simp (disch := omega) only [load32_store32_of_disjoint, load32_store32]
      rw [h.flags, flagsOf_concat]
      · rw [hits_hit, List.length_append, List.length_singleton, telemetryEvents]
        omega
      · exact .inr (states_hit _ _)
      · rw [hits_hit, List.length_append]
        omega
      · rw [states_hit]
    case eventSlot =>
      intro i hi e he
      rw [hits_hit] at he
      by_cases hlast : i = (t.load32 order 4).toNat
      · subst hlast
        rw [hk, List.getElem?_concat_length] at he
        obtain rfl := Option.some.inj he
        simp (disch := omega) only [load32_store32_of_disjoint, load32_store32]
      · have hlt : i < (hits calls).length := by
          have hlen := (List.getElem?_eq_some_iff.1 he).1
          rw [List.length_append, List.length_singleton] at hlen
          omega
        rw [List.getElem?_append_left hlt] at he
        simp (disch := omega) only [load32_store32_of_disjoint]
        exact h.eventSlot i hi e he
    case stateSlot =>
      intro i hi e he
      rw [states_hit] at he
      have hbase : stateBase = 32784 := rfl
      simp (disch := omega) only [load64_store32_of_disjoint]
      exact h.stateSlot i hi e he
  · have hge : ¬ (t.load32 order 4).toNat < telemetryEvents := by
      unfold telemetryEvents
      omega
    rw [dif_neg hge]
    constructor
    case scanCount =>
      simp (disch := omega) only [load32_store32_of_disjoint, cycles_hit]
      exact h.scanCount
    case eventCount =>
      simp (disch := omega) only [load32_store32_of_disjoint, hits_hit]
      rw [h.eventCount, List.length_append, telemetryEvents, Nat.min_eq_right (by omega),
        Nat.min_eq_right (by omega)]
    case stateCount =>
      simp (disch := omega) only [load32_store32_of_disjoint, states_hit]
      exact h.stateCount
    case flags =>
      rw [load32_store32, h.flags, flagsOf_hit_dropped (by unfold telemetryEvents; omega)]
    case eventSlot =>
      intro i hi e he
      unfold telemetryEvents at hi
      rw [hits_hit, List.getElem?_append_left (by omega)] at he
      simp (disch := omega) only [load32_store32_of_disjoint]
      exact h.eventSlot i hi e he
    case stateSlot =>
      intro i hi e he
      rw [states_hit] at he
      have hbase : stateBase = 32784 := rfl
      simp (disch := omega) only [load64_store32_of_disjoint]
      exact h.stateSlot i hi e he

theorem Holds.cycle (h : Holds order t calls) (id : UInt32) :
    Holds order (t.cycle order) (calls ++ [.cycle id]) := by
  have hbase : stateBase = 32784 := rfl
  have hscan : (t.load32 order 0).toNat = min (cycles calls) u32Max := by
    rw [h.scanCount, UInt32.toNat_ofNat', u32Max]
    omega
  have hflags : flagsOf (calls ++ [.cycle id]) = flagsOf calls ||| 4 := by
    rw [flagsOf_concat]
    · exact .inr (hits_cycle _ _)
    · exact .inr (states_cycle _ _)
    · rw [hits_cycle]
    · rw [states_cycle]
  unfold u32Max at hscan
  unfold TelemetryBuffer.cycle
  simp (disch := omega) only [load32_store32_of_disjoint]
  by_cases hroom : cycles calls < 2 ^ 32 - 1
  · have hlt : t.load32 order 0 < 0xFFFFFFFF := by
      rw [UInt32.lt_iff_toNat_lt, hscan]
      change min _ _ < 2 ^ 32 - 1
      omega
    rw [if_pos hlt]
    constructor
    case scanCount =>
      rw [load32_store32, ofNat_succ hscan, cycles_cycle, u32Max]
      congr 1
      omega
    case eventCount =>
      simp (disch := omega) only [load32_store32_of_disjoint, hits_cycle]
      exact h.eventCount
    case stateCount =>
      simp (disch := omega) only [load32_store32_of_disjoint, states_cycle]
      exact h.stateCount
    case flags =>
      simp (disch := omega) only [load32_store32_of_disjoint, load32_store32]
      rw [h.flags, hflags]
    case eventSlot =>
      intro i hi e he
      rw [hits_cycle] at he
      simp (disch := omega) only [load32_store32_of_disjoint]
      exact h.eventSlot i hi e he
    case stateSlot =>
      intro i hi e he
      rw [states_cycle] at he
      simp (disch := omega) only [load64_store32_of_disjoint]
      exact h.stateSlot i hi e he
  · have hge : ¬ t.load32 order 0 < 0xFFFFFFFF := by
      rw [UInt32.lt_iff_toNat_lt, hscan]
      change ¬ min _ _ < 2 ^ 32 - 1
      omega
    rw [if_neg hge]
    constructor
    case scanCount =>
      rw [h.scanCount, cycles_cycle, u32Max]
      congr 1
      omega
    case eventCount => rw [h.eventCount, hits_cycle]
    case stateCount => rw [h.stateCount, states_cycle]
    case flags => rw [h.flags, hflags, flagsOf_cycles (by omega)]
    case eventSlot =>
      intro i hi e he
      rw [hits_cycle] at he
      exact h.eventSlot i hi e he
    case stateSlot =>
      intro i hi e he
      rw [states_cycle] at he
      exact h.stateSlot i hi e he

theorem Holds.state (h : Holds order t calls) (before after : UInt64) :
    Holds order (t.state order before after) (calls ++ [.state before after]) := by
  have hbase : stateBase = 32784 := rfl
  have hindex := h.stateIndex
  unfold telemetryStates at hindex
  unfold TelemetryBuffer.state
  simp (disch := omega) only [load32_store32_of_disjoint, load32_store32]
  by_cases hroom : (states calls).length < 512
  · have hk : (t.load32 order 8).toNat = (states calls).length := by omega
    have hlt : (t.load32 order 8).toNat < telemetryStates := by
      unfold telemetryStates
      omega
    rw [dif_pos hlt]
    constructor
    case scanCount =>
      simp (disch := omega) only [load32_store32_of_disjoint, load32_store64_of_disjoint, cycles_state]
      exact h.scanCount
    case eventCount =>
      simp (disch := omega) only [load32_store32_of_disjoint, load32_store64_of_disjoint, hits_state]
      exact h.eventCount
    case stateCount =>
      rw [load32_store32, ofNat_succ hk, states_state, List.length_append, List.length_singleton,
        telemetryStates, Nat.min_eq_left (by omega)]
    case flags =>
      simp (disch := omega) only [load32_store32_of_disjoint, load32_store64_of_disjoint,
        load32_store32]
      rw [h.flags, flagsOf_concat]
      · exact .inr (hits_state _ _ _)
      · rw [states_state, List.length_append, List.length_singleton, telemetryStates]
        omega
      · rw [hits_state]
      · rw [states_state, List.length_append]
        omega
    case eventSlot =>
      intro i hi e he
      unfold telemetryEvents at hi
      rw [hits_state] at he
      simp (disch := omega) only [load32_store32_of_disjoint, load32_store64_of_disjoint]
      exact h.eventSlot i hi e he
    case stateSlot =>
      intro i hi e he
      rw [states_state] at he
      by_cases hlast : i = (t.load32 order 8).toNat
      · subst hlast
        rw [hk, List.getElem?_concat_length] at he
        obtain rfl := Option.some.inj he
        simp (disch := omega) only [load64_store32_of_disjoint, load64_store64_of_disjoint,
          load64_store64]
      · have hlt : i < (states calls).length := by
          have hlen := (List.getElem?_eq_some_iff.1 he).1
          rw [List.length_append, List.length_singleton] at hlen
          omega
        rw [List.getElem?_append_left hlt] at he
        simp (disch := omega) only [load64_store32_of_disjoint, load64_store64_of_disjoint]
        exact h.stateSlot i hi e he
  · have hge : ¬ (t.load32 order 8).toNat < telemetryStates := by
      unfold telemetryStates
      omega
    rw [dif_neg hge]
    constructor
    case scanCount =>
      simp (disch := omega) only [load32_store32_of_disjoint, cycles_state]
      exact h.scanCount
    case eventCount =>
      simp (disch := omega) only [load32_store32_of_disjoint, hits_state]
      exact h.eventCount
    case stateCount =>
      simp (disch := omega) only [load32_store32_of_disjoint, states_state]
      rw [h.stateCount, List.length_append, telemetryStates, Nat.min_eq_right (by omega),
        Nat.min_eq_right (by omega)]
    case flags =>
      rw [load32_store32, h.flags, flagsOf_state_dropped (by unfold telemetryStates; omega)]
    case eventSlot =>
      intro i hi e he
      rw [hits_state] at he
      simp (disch := omega) only [load32_store32_of_disjoint]
      exact h.eventSlot i hi e he
    case stateSlot =>
      intro i hi e he
      unfold telemetryStates at hi
      rw [states_state, List.getElem?_append_left (by omega)] at he
      simp (disch := omega) only [load64_store32_of_disjoint]
      exact h.stateSlot i hi e he

end Calls

/-! ## What is read back -/

/-- The signatures of a state: of the state before, of the state after and of the transition. -/
def stateSignaturesOf (state : UInt64 × UInt64) : List StateSignature :=
  [.state state.1, .state state.2, .transition (rotateLeft state.1 17 ^^^ state.2)]

/-- What the calls of an execution report. -/
def reported (calls : List TelemetryCall) : SemanticTelemetry where
  scanCount := UInt32.ofNat (min (cycles calls) u32Max)
  orderedRuntimeIds := ((hits calls).take telemetryEvents).map Prod.fst
  cycleEvents := ((hits calls).take telemetryEvents).filterMap fun (runtimeId, cycle) =>
    (fitsI32 cycle).map fun cycle => (runtimeId, cycle)
  stateSignatures := (((states calls).take telemetryStates).flatMap
    stateSignaturesOf).eraseDups.take maxExecutionStateSignatures
  orderedComplete := calls ≠ [] ∧ (hits calls).length ≤ telemetryEvents
  truncated := telemetryEvents < (hits calls).length ∨ telemetryStates < (states calls).length

section EraseDups

variable {α β : Type*} [BEq α] [LawfulBEq α] [BEq β] [LawfulBEq β] {l : List α} {a : α}

theorem eraseDups_concat_of_mem (h : a ∈ l) : (l ++ [a]).eraseDups = l.eraseDups := by
  rw [List.eraseDups_append]
  simp [List.removeAll, h]

theorem eraseDups_concat_of_not_mem (h : a ∉ l) : (l ++ [a]).eraseDups = l.eraseDups ++ [a] := by
  rw [List.eraseDups_append]
  simp [List.removeAll, h, List.eraseDups_cons]

theorem eraseDups_map {f : α → β} (hf : ∀ a ∈ l, ∀ b ∈ l, f a = f b → a = b) :
    (l.map f).eraseDups = l.eraseDups.map f := by
  induction l using List.reverseRecOn with
  | nil => rfl
  | append_singleton l a ih =>
    have hl := ih fun b hb c hc => hf b (List.mem_append_left _ hb) c (List.mem_append_left _ hc)
    have hmem : f a ∈ l.map f ↔ a ∈ l := by
      refine ⟨fun h => ?_, List.mem_map_of_mem⟩
      obtain ⟨b, hb, heq⟩ := List.mem_map.1 h
      rwa [← hf b (List.mem_append_left _ hb) a (List.mem_append_right _ List.mem_cons_self) heq]
    rw [List.map_append, List.map_singleton]
    by_cases ha : a ∈ l
    · rw [eraseDups_concat_of_mem ha, eraseDups_concat_of_mem (hmem.2 ha), hl]
    · rw [eraseDups_concat_of_not_mem ha, eraseDups_concat_of_not_mem fun h => ha (hmem.1 h), hl,
        List.map_append, List.map_singleton]

end EraseDups

/-- The keys that were pushed are the first of the distinct ones. -/
theorem foldl_pushSignature (keys : List (UInt8 × UInt64)) :
    keys.foldl pushSignature ([], []) =
      ((keys.eraseDups.take maxExecutionStateSignatures).map fun key => signature key.1 key.2,
        (keys.eraseDups.take maxExecutionStateSignatures).reverse) := by
  induction keys using List.reverseRecOn with
  | nil => rfl
  | append_singleton keys key ih =>
    rw [List.foldl_append, ih, List.foldl_cons, List.foldl_nil, pushSignature]
    simp only [List.length_map, List.length_take, List.mem_reverse]
    by_cases hseen : key ∈ keys
    · rw [eraseDups_concat_of_mem hseen]
      split
      · rename_i hpush
        rw [List.take_of_length_le (by omega), List.mem_eraseDups] at hpush
        exact absurd hseen hpush.2
      · rfl
    · rw [eraseDups_concat_of_not_mem hseen]
      by_cases hroom : keys.eraseDups.length < maxExecutionStateSignatures
      · have hnew : key ∉ keys.eraseDups.take maxExecutionStateSignatures := fun h =>
          hseen (List.mem_eraseDups.1 (List.mem_of_mem_take h))
        rw [if_pos ⟨by omega, hnew⟩, List.take_of_length_le (le_of_lt hroom), List.take_of_length_le]
        · rw [List.map_append, List.reverse_append]
          rfl
        · rw [List.length_append, List.length_singleton]
          omega
      · rw [if_neg fun h => absurd h.1 (by omega), List.take_append_of_le_length (by omega)]

/-- Reading the states gives the distinct signatures, up to the limit. -/
theorem foldl_states (recorded : List (UInt64 × UInt64)) :
    (recorded.foldl (fun acc state => (signaturesOf state.1 state.2).foldl pushSignature acc)
      ([], [])).1 =
      (recorded.flatMap stateSignaturesOf).eraseDups.take maxExecutionStateSignatures := by
  have hkeys : ∀ key ∈ recorded.flatMap fun state => signaturesOf state.1 state.2,
      key.1 = 0 ∨ key.1 = 1 := by
    intro key hkey
    obtain ⟨state, -, hkey⟩ := List.mem_flatMap.1 hkey
    simp only [signaturesOf, List.mem_cons, List.not_mem_nil, or_false] at hkey
    rcases hkey with rfl | rfl | rfl
    · exact .inl rfl
    · exact .inl rfl
    · exact .inr rfl
  have hmap : recorded.flatMap stateSignaturesOf =
      (recorded.flatMap fun state => signaturesOf state.1 state.2).map fun key =>
        signature key.1 key.2 := by
    rw [List.map_flatMap]
    rfl
  have hfold := foldl_pushSignature (recorded.flatMap fun state => signaturesOf state.1 state.2)
  rw [List.foldl_flatMap] at hfold
  have hinjective : ∀ key ∈ recorded.flatMap fun state => signaturesOf state.1 state.2,
      ∀ key' ∈ recorded.flatMap fun state => signaturesOf state.1 state.2,
        signature key.1 key.2 = signature key'.1 key'.2 → key = key' := by
    rintro ⟨kind, x⟩ hx ⟨kind', y⟩ hy heq
    rcases hkeys _ hx with rfl | rfl
    · rcases hkeys _ hy with rfl | rfl
      · exact congrArg _ (StateSignature.state.inj heq)
      · exact nomatch heq
    · rcases hkeys _ hy with rfl | rfl
      · exact nomatch heq
      · exact congrArg _ (StateSignature.transition.inj heq)
  rw [hfold, hmap, eraseDups_map hinjective, ← List.map_take]

section Reads

variable {order : ByteOrder} {t : TelemetryBuffer} {calls : List TelemetryCall}

/-- The slots that are counted hold the first entries of a log. -/
theorem map_range_eq_take {α : Type*} {f : ℕ → α} {l : List α} {n : ℕ}
    (h : ∀ i < n, ∀ a, l[i]? = some a → f i = a) : (List.range (min l.length n)).map f = l.take n := by
  apply List.ext_getElem
  · rw [List.length_map, List.length_range, List.length_take, Nat.min_comm]
  · intro i hi _
    rw [List.length_map, List.length_range] at hi
    rw [List.getElem_map, List.getElem_range, List.getElem_take]
    exact h i (by omega) _ (List.getElem?_eq_getElem (by omega))

theorem flagsOf_and_four : flagsOf calls &&& 4 ≠ 0 ↔ calls ≠ [] := by
  have hbits : ∀ a b c : Bool, ((if a then (0 : UInt32) else 4) ||| (if b then 1 else 0) |||
      if c then 2 else 0) &&& 4 ≠ 0 ↔ a = false := by decide
  simpa [flagsOf] using hbits (calls = []) (telemetryEvents < (hits calls).length)
    (telemetryStates < (states calls).length)

theorem flagsOf_and_one : flagsOf calls &&& 1 = 0 ↔ (hits calls).length ≤ telemetryEvents := by
  have hbits : ∀ a b c : Bool, ((if a then (0 : UInt32) else 4) ||| (if b then 1 else 0) |||
      if c then 2 else 0) &&& 1 = 0 ↔ b = false := by decide
  simpa [flagsOf] using hbits (calls = []) (telemetryEvents < (hits calls).length)
    (telemetryStates < (states calls).length)

theorem flagsOf_and_three : flagsOf calls &&& 3 ≠ 0 ↔
    telemetryEvents < (hits calls).length ∨ telemetryStates < (states calls).length := by
  have hbits : ∀ a b c : Bool, ((if a then (0 : UInt32) else 4) ||| (if b then 1 else 0) |||
      if c then 2 else 0) &&& 3 ≠ 0 ↔ b = true ∨ c = true := by decide
  simpa [flagsOf] using hbits (calls = []) (telemetryEvents < (hits calls).length)
    (telemetryStates < (states calls).length)

/-- **The reader finds what the calls report.** -/
theorem Holds.read (h : Holds order t calls) :
    readSemanticTelemetry order t.bytes = reported calls := by
  have hevents : (u32At order t.bytes 4).toNat = min (hits calls).length telemetryEvents :=
    h.eventIndex
  have hstates : (u32At order t.bytes 8).toNat = min (states calls).length telemetryStates :=
    h.stateIndex
  have hflags : u32At order t.bytes 12 = flagsOf calls := h.flags
  have hscan : u32At order t.bytes 0 = _ := h.scanCount
  have hslots := map_range_eq_take h.eventSlot
  have hstateSlots := map_range_eq_take h.stateSlot
  unfold TelemetryBuffer.load32 at hslots
  unfold TelemetryBuffer.load64 at hstateSlots
  have hcomplete : (flagsOf calls &&& 4 ≠ 0 ∧ flagsOf calls &&& 1 = 0 ∧
      min (hits calls).length telemetryEvents ≤ telemetryEvents) ↔
        calls ≠ [] ∧ (hits calls).length ≤ telemetryEvents := by
    rw [flagsOf_and_four, flagsOf_and_one]
    exact ⟨fun h => ⟨h.1, h.2.1⟩, fun h => ⟨h.1, h.2, Nat.min_le_right _ _⟩⟩
  have htruncated : (flagsOf calls &&& 3 ≠ 0 ∨
      telemetryEvents < min (hits calls).length telemetryEvents ∨
      telemetryStates < min (states calls).length telemetryStates) ↔
        telemetryEvents < (hits calls).length ∨ telemetryStates < (states calls).length := by
    rw [flagsOf_and_three]
    omega
  unfold readSemanticTelemetry reported
  simp only [hevents, hstates, hflags, hscan, Nat.min_assoc, Nat.min_self, hslots, hstateSlots,
    foldl_states, hcomplete, htruncated]

end Reads

/-! ## Executions -/

/-- The runtime after the calls of an execution, which starts with a cleared header. -/
def SemanticCoverage.execute (order : ByteOrder) (s : SemanticCoverage) (t : TelemetryBuffer)
    (calls : List TelemetryCall) : SemanticCoverage :=
  calls.foldl (SemanticCoverage.call order) { s with telemetry := some t.preExec }

/-- What an execution leaves in the telemetry, as it is read. -/
def telemetryOf (order : ByteOrder) (s : SemanticCoverage) (t : TelemetryBuffer)
    (calls : List TelemetryCall) : Option SemanticTelemetry :=
  (s.execute order t calls).telemetry.map fun t => readSemanticTelemetry order t.bytes

section Executions

variable {order : ByteOrder}

/-- One call. -/
theorem holds_call {s : SemanticCoverage} {t : TelemetryBuffer} {calls : List TelemetryCall}
    (hs : s.telemetry = some t) (h : Holds order t calls) (call : TelemetryCall) :
    ∃ t', (s.call order call).telemetry = some t' ∧ Holds order t' (calls ++ [call]) := by
  cases call with
  | hit runtimeId => exact ⟨_, congrArg (Option.map _) hs, h.hit runtimeId⟩
  | cycle id => exact ⟨_, congrArg (Option.map _) hs, h.cycle id⟩
  | state before after => exact ⟨_, congrArg (Option.map _) hs, h.state before after⟩

/-- All calls of an execution. -/
theorem holds_execute (order : ByteOrder) (s : SemanticCoverage) (t : TelemetryBuffer) (calls : List TelemetryCall) :
    ∃ t', (s.execute order t calls).telemetry = some t' ∧ Holds order t' calls := by
  induction calls using List.reverseRecOn with
  | nil => exact ⟨_, rfl, holds_preExec t⟩
  | append_singleton calls call ih =>
    obtain ⟨t', ht', hholds⟩ := ih
    rw [SemanticCoverage.execute, List.foldl_append]
    exact holds_call ht' hholds call

theorem telemetryOf_eq (s : SemanticCoverage) (t : TelemetryBuffer) (calls : List TelemetryCall) :
    telemetryOf order s t calls = some (reported calls) := by
  obtain ⟨t', ht', hholds⟩ := holds_execute order s t calls
  rw [telemetryOf, ht', Option.map_some, hholds.read]

/-- **Writer and reader agree**, whatever the buffer held before. -/
theorem telemetryOf_reported (order : ByteOrder) (s : SemanticCoverage) (t : TelemetryBuffer)
    (calls : List TelemetryCall) : telemetryOf order s t calls = some (reported calls) :=
  telemetryOf_eq s t calls

end Executions

/-- A scan begins and nothing else happens: the trace counts as complete, without any hit.  And a hit
after more than 2³¹ scans is reported without its scan. -/
theorem reported_without_hits :
    hits [.cycle 0] = [] ∧ (telemetryOf .little ⟨none, 0, 0, none⟩ ⟨List.replicate telemetrySize 0, List.length_replicate⟩
      [.cycle 0]).map SemanticTelemetry.orderedComplete = some true ∧
    hits (List.replicate (2 ^ 31 + 1) (.cycle 0) ++ [.hit 7]) = [(7, UInt32.ofNat (2 ^ 31))] ∧
    (telemetryOf .little ⟨none, 0, 0, none⟩ ⟨List.replicate telemetrySize 0, List.length_replicate⟩
      (List.replicate (2 ^ 31 + 1) (.cycle 0) ++ [.hit 7])).map (fun r =>
        (r.orderedRuntimeIds, r.cycleEvents)) = some ([7], []) := by
  have hcycles : ∀ n, cycles (List.replicate n (.cycle 0)) = n := by
    intro n
    induction n with
    | zero => rfl
    | succ n ih => rw [List.replicate_succ, cycles, ih]
  have hhits : ∀ n m, hitsFrom m (List.replicate n (.cycle 0)) = [] := by
    intro n
    induction n with
    | zero => exact fun _ => rfl
    | succ n ih =>
      intro m
      rw [List.replicate_succ, hitsFrom, ih]
  have hlate : hits (List.replicate (2 ^ 31 + 1) (.cycle 0) ++ [.hit 7]) =
      [(7, UInt32.ofNat (2 ^ 31))] := by
    rw [hits_hit, hits, hhits, hcycles]
    rfl
  rw [telemetryOf_eq, telemetryOf_eq]
  refine ⟨rfl, rfl, hlate, ?_⟩
  rw [Option.map_some, reported, hlate]
  rfl

end SemantiST.Semantic
