import SemantiST.Engine.Frames
import SemantiST.Lib.Map

/-!
# The bundle

`fuzzer/engine/src/v3.rs`: the ABI, state layout and goal tasks the engine loads, the schema
derived from them, the testcase text the stage writes (`serialize`, of `v3_stage.rs`), and the
record slices it sends to the harness.
-/

namespace SemantiST.Engine

open Lib

/-! ## Data -/

structure V3Region where
  name : Text
  size : ℕ
  source : Text
  /-- The `kind` and the `offset` of each field. -/
  fields : List (Text × Option ℕ)

structure V3Layout where
  regions : List V3Region

structure StateSlice where
  name : Text
  region : Text
  offset : Option ℤ
  ctype : Option Text

/-- What an observation reads of a goal task. -/
structure V3Task where
  stateSlice : List StateSlice
  runtimeId : Option ℕ

structure V3Bundle where
  abi : TargetAbi
  layout : V3Layout
  tasks : List V3Task
  scanPeriodNs : ℕ

/-! ## The schema -/

def integerBounds : TypeSpec → Option (ℤ × ℤ)
  | .scalar t =>
    if t.isReal then none
    else if t.size = 0 ∨ 8 < t.size then none
    else if t = .bool then some (0, 1)
    else if t.unsigned then some (0, 2 ^ (t.size * 8) - 1)
    else some (-2 ^ (t.size * 8 - 1), 2 ^ (t.size * 8 - 1) - 1)
  | _ => none

def stringLength : TypeSpec → Option ℕ
  | .string _ length => some length
  | _ => none

def stringWide : TypeSpec → Option Bool
  | .string wide _ => some wide
  | _ => none

/-- The entries of a table that has one for each field with a value of `f`, later fields last. -/
def tableOf {α : Type} (f : TypeSpec → Option α) (fields : List Param) :
    Std.ExtTreeMap Text α compare :=
  fields.foldl (fun m p => match f p.spec with
    | some a => m.insert p.name a
    | none => m) ∅

section TableOf

variable {α : Type} {f : TypeSpec → Option α} {fields : List Param} {k : Text} {a : α}

theorem tableOf_concat (p : Param) : tableOf f (fields ++ [p]) =
    match f p.spec with
    | some a => (tableOf f fields).insert p.name a
    | none => tableOf f fields := by
  simp [tableOf, List.foldl_append]

/-- An entry comes from a field of that name. -/
theorem mem_of_tableOf (h : (tableOf f fields)[k]? = some a) :
    ∃ p ∈ fields, p.name = k ∧ f p.spec = some a := by
  induction fields using List.reverseRecOn with
  | nil => simp [tableOf] at h
  | append_singleton fields p ih =>
    have hold : (tableOf f fields)[k]? = some a →
        ∃ q ∈ fields ++ [p], q.name = k ∧ f q.spec = some a := by
      intro h'
      obtain ⟨q, hq, hqk, hqa⟩ := ih h'
      exact ⟨q, List.mem_append_left _ hq, hqk, hqa⟩
    rw [tableOf_concat] at h
    cases hp : f p.spec with
    | none =>
      rw [hp] at h
      exact hold h
    | some a' =>
      rw [hp] at h
      simp only at h
      rw [getElem?_insert_eq] at h
      split at h
      · rename_i hk
        exact ⟨p, by simp, hk, by rw [hp, ← h]⟩
      · exact hold h

/-- Where names determine fields, every field has its entry. -/
theorem tableOf_of_mem (hname : ∀ p ∈ fields, ∀ q ∈ fields, p.name = q.name → p = q) {p : Param}
    (hp : p ∈ fields) (ha : f p.spec = some a) : (tableOf f fields)[p.name]? = some a := by
  have hsome : ∀ fields : List Param, p ∈ fields → (tableOf f fields)[p.name]?.isSome := by
    intro fields
    induction fields using List.reverseRecOn with
    | nil => simp
    | append_singleton fields q ih =>
      intro hmem
      rw [tableOf_concat]
      rcases List.mem_append.1 hmem with hmem | hmem
      · cases f q.spec with
        | none => exact ih hmem
        | some a' =>
          simp only
          rw [getElem?_insert_eq]
          split
          · rfl
          · exact ih hmem
      · rw [List.mem_singleton] at hmem
        subst hmem
        rw [ha]
        simp
  obtain ⟨a', ha'⟩ := Option.isSome_iff_exists.1 (hsome fields hp)
  obtain ⟨q, hq, hqn, hqa⟩ := mem_of_tableOf ha'
  obtain rfl := hname q hq p hp hqn
  rw [ha', ← hqa, ha]

/-- A table of a total function has an entry for each name. -/
theorem isSome_tableOf {g : TypeSpec → α} :
    ((tableOf (fun s => some (g s)) fields)[k]?).isSome ↔ k ∈ fields.map Param.name := by
  induction fields using List.reverseRecOn with
  | nil => simp [tableOf]
  | append_singleton fields p ih =>
    rw [tableOf_concat]
    simp only [getElem?_insert_eq, List.map_append, List.mem_append, List.map_cons, List.map_nil,
      List.mem_singleton, ← ih]
    by_cases hk : p.name = k
    · simp [hk]
    · simp [hk, Ne.symm hk]

end TableOf

/-- `V3Bundle::schema`. -/
def schema (abi : TargetAbi) : FrameSchema where
  frameDefaults := tableOf (fun s => some s.defaultFor) abi.frameActionParams
  frameTypes := tableOf (fun s => some s.typeToken) abi.frameActionParams
  sharedTypes := tableOf (fun s => some s.typeToken) abi.sharedParams
  frameBounds := tableOf integerBounds abi.frameActionParams
  sharedBounds := tableOf integerBounds abi.sharedParams
  frameStringLengths := tableOf stringLength abi.frameActionParams
  sharedStringLengths := tableOf stringLength abi.sharedParams
  frameStringWide := tableOf stringWide abi.frameActionParams
  sharedStringWide := tableOf stringWide abi.sharedParams

/-! ## Texts -/

/-- One record of a testcase. -/
def record (name token value : Text) : Text := name ++ ',' :: (token ++ ',' :: value)

/-- The name of a field in frame `index`. -/
def frameName (index : ℕ) (field : Text) : Text := decimal index ++ '.' :: field

/-- The records of one frame: every action field, then the time step if it has one. -/
def frameLines (abi : TargetAbi) (index : ℕ) (frame : Frame) : List Text :=
  (abi.frameActionParams.map fun field =>
    record (frameName index field.name) field.spec.typeToken
      (frame.values[field.name]?.getD field.spec.defaultFor)) ++
  match frame.dtNs with
  | some dt => [record (frameName index reservedDt) "TIME".toList (decimal dt)]
  | none => []

/-- `frame_records`: what `semantist_parse_frame` is given. -/
def frameRecords (abi : TargetAbi) (index : ℕ) (frame : Frame) : Text :=
  unlines (frameLines abi index frame)

/-- The token `serialize` writes for a shared name; a name the ABI does not have gets none. -/
def sharedToken (abi : TargetAbi) (name : Text) : Text :=
  ((abi.sharedParams.find? fun field => field.name = name).map fun field =>
    field.spec.typeToken).getD []

def sharedLines (abi : TargetAbi) (shared : Values) : List Text :=
  shared.toList.map fun p => record p.1 (sharedToken abi p.1) p.2

/-- `serialize` of the stage. -/
def serialize (abi : TargetAbi) (frames : List Frame) (shared : Values) : Text :=
  unlines (sharedLines abi shared ++
    frames.zipIdx.flatMap fun p => frameLines abi p.2 p.1)

/-- The text before the first comma. -/
def firstPart (line : Text) : Text := ((splitOnce ',' line).map Prod.fst).getD line

/-- A line `shared_records` keeps. -/
def isSharedLine (line : Text) : Bool :=
  let name := trim isWhitespace (firstPart line)
  !(name == []) && !(name == reservedInit) && !(name == reservedDt) && !name.contains '.'

/-- `shared_records`: what `semantist_init` is given. -/
def sharedRecords (text : Text) : Text := ['\n'].intercalate ((lines text).filter isSharedLine)

/-! ## Reading a state -/

/-- `region_base`. -/
def regionBase (name : Text) : ℕ → List V3Region → Option ℕ
  | _, [] => none
  | offset, region :: regions =>
    if region.name = name ∨ (name = "instance".toList ∧ region.source = "harness".toList) then
      let extra :=
        if name = "instance".toList then
          ((region.fields.find? fun f => f.1 = "fb_instance".toList).bind Prod.snd).getD 0
        else 0
      some (offset + extra)
    else regionBase name (offset + region.size) regions

/-- The first `n` bytes, when there are that many, as a little-endian number. -/
def leNat (n : ℕ) (bytes : List UInt8) : Option ℕ :=
  if n ≤ bytes.length then
    some ((bytes.take n).foldr (fun b v => b.toNat + 256 * v) 0)
  else none

/-- A little-endian number in two's complement. -/
def leInt (n : ℕ) (bytes : List UInt8) : Option ℤ :=
  (leNat n bytes).map fun v => if v < 2 ^ (8 * n - 1) then (v : ℤ) else (v : ℤ) - 2 ^ (8 * n)

def readStateField (layout : V3Layout) (state : List UInt8) (entry : StateSlice) : Option ℤ := do
  let base ← regionBase entry.region 0 layout.regions
  let offset ← entry.offset
  let index := base + (offset % 2 ^ 64).toNat
  if state.length < index then none
  let bytes := state.drop index
  let ctype := entry.ctype.getD "int32_t".toList
  if ctype = "uint8_t".toList ∨ ctype = "bool".toList then (leNat 1 bytes).map Int.ofNat
  else if ctype = "int8_t".toList then leInt 1 bytes
  else if ctype = "uint16_t".toList then (leNat 2 bytes).map Int.ofNat
  else if ctype = "int16_t".toList then leInt 2 bytes
  else if ctype = "uint32_t".toList then (leNat 4 bytes).map Int.ofNat
  else if ctype = "int32_t".toList then leInt 4 bytes
  else if ctype = "uint64_t".toList ∨ ctype = "ULINT".toList ∨ ctype = "LWORD".toList then
    (leNat 8 bytes).map Int.ofNat
  else if ctype = "int64_t".toList ∨ ctype = "LINT".toList then leInt 8 bytes
  else none

end SemantiST.Engine
