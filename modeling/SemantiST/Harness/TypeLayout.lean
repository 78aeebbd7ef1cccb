import SemantiST.Lib.Layout
import SemantiST.Lib.MapM
import SemantiST.Harness.LlvmTypes

/-!
# The layout of types

`size_align` and `struct_field_layout` (`compiler/harness/llvm_ir.py`), the layout of the target's data layout,
and where they agree (`layout_agrees_iff`).
-/

namespace SemantiST.Harness

open Lib

/-! ## Sizes as the reader computes them -/

/-- `definitions`, by what a name is referred to by. -/
abbrev TypeDefinitions := Text → Option LLVMType

/-- The memo table. -/
abbrev ExtentCache := Text → Option Extent

def ExtentCache.set (cache : ExtentCache) (name : Text) (extent : Extent) : ExtentCache :=
  fun other => if other = name then some extent else cache other

def intExtent (bits : ℕ) : Extent :=
  let size := max 1 ((bits + 7) / 8)
  if bits > 64 then ⟨(bits + 7) / 8, 16⟩ else ⟨size, min size 8⟩

def floatExtent (bits : ℕ) : Extent :=
  let size := max 1 ((bits + 7) / 8)
  ⟨size, size⟩

/-- `offset`, padded where it is not aligned. -/
def padTo (offset align : ℕ) : ℕ := if offset % align ≠ 0 then offset + (align - offset % align) else offset

def structEnd (maxAlign offset : ℕ) : Extent :=
  ⟨if maxAlign > 1 then padTo offset maxAlign else offset, maxAlign⟩

mutual

/-- `size_align`; `resolve` is what it does for a name that is not in the table. -/
def sizeAlignWith (resolve : Text → ExtentCache → Option (Extent × ExtentCache)) :
    LLVMType → ExtentCache → Option (Extent × ExtentCache)
  | .ptr, cache => some (⟨8, 8⟩, cache)
  | .void, cache => some (⟨0, 1⟩, cache)
  | .int bits, cache => some (intExtent bits, cache)
  | .float bits, cache => some (floatExtent bits, cache)
  | .array count element, cache => do
    let (extent, cache) ← sizeAlignWith resolve element cache
    return (⟨count * extent.size, extent.align⟩, cache)
  | .vector count element, cache => do
    let (extent, cache) ← sizeAlignWith resolve element cache
    return (⟨count * extent.size, extent.align⟩, cache)
  | .struct fields, cache => structSizeAlignWith resolve 1 0 fields cache
  | .named name, cache =>
    match cache name with
    | some extent => some (extent, cache)
    | none => resolve name cache

/-- The loop of `struct_size_align`. -/
def structSizeAlignWith (resolve : Text → ExtentCache → Option (Extent × ExtentCache)) (maxAlign offset : ℕ) :
    List LLVMType → ExtentCache → Option (Extent × ExtentCache)
  | [], cache => some (structEnd maxAlign offset, cache)
  | field :: fields, cache => do
    let (extent, cache) ← sizeAlignWith resolve field cache
    structSizeAlignWith resolve (max maxAlign extent.align) (padTo offset extent.align + extent.size) fields cache

end

/-- A definition is measured, with a placeholder in the table meanwhile. -/
def resolve (definitions : TypeDefinitions) : ℕ → Text → ExtentCache → Option (Extent × ExtentCache)
  | 0, _, _ => none
  | n + 1, name, cache => do
    let body ← definitions name
    let (extent, cache) ← sizeAlignWith (resolve definitions n) body (cache.set name ⟨0, 1⟩)
    return (extent, cache.set name extent)

def sizeAlign (definitions : TypeDefinitions) (fuel : ℕ) (t : LLVMType) (cache : ExtentCache) :
    Option (Extent × ExtentCache) :=
  sizeAlignWith (resolve definitions fuel) t cache

/-- The loop of `struct_field_layout`. -/
def fieldLayoutFrom (definitions : TypeDefinitions) (fuel : ℕ) :
    ℕ → List LLVMType → ExtentCache → Option (List (ℕ × ℕ × LLVMType))
  | _, [], _ => some []
  | offset, field :: fields, cache => do
    let (extent, cache) ← sizeAlign definitions fuel field cache
    let start := padTo offset extent.align
    let rest ← fieldLayoutFrom definitions fuel (start + extent.size) fields cache
    return (start, extent.size, field) :: rest

def structFieldLayout (definitions : TypeDefinitions) (fuel : ℕ) (fields : List LLVMType) :
    Option (List (ℕ × ℕ × LLVMType)) :=
  fieldLayoutFrom definitions fuel 0 fields fun _ => none

/-! ## Sizes without the memo table -/

mutual

def extentWith (named : Text → Option Extent) : LLVMType → Option Extent
  | .ptr => some ⟨8, 8⟩
  | .void => some ⟨0, 1⟩
  | .int bits => some (intExtent bits)
  | .float bits => some (floatExtent bits)
  | .array count element => (extentWith named element).map fun extent => ⟨count * extent.size, extent.align⟩
  | .vector count element => (extentWith named element).map fun extent => ⟨count * extent.size, extent.align⟩
  | .struct fields => structExtentWith named 1 0 fields
  | .named name => named name

def structExtentWith (named : Text → Option Extent) (maxAlign offset : ℕ) : List LLVMType → Option Extent
  | [] => some (structEnd maxAlign offset)
  | field :: fields => (extentWith named field).bind fun extent =>
    structExtentWith named (max maxAlign extent.align) (padTo offset extent.align + extent.size) fields

end

/-- The extent of a definition, by plain recursion. -/
def namedExtent (definitions : TypeDefinitions) : ℕ → Text → Option Extent
  | 0, _ => none
  | n + 1, name => (definitions name).bind (extentWith (namedExtent definitions n))

/-! ## The memo table -/

mutual

/-- The names that a type refers to. -/
def typeNames : LLVMType → List Text
  | .int _ | .float _ | .ptr | .void => []
  | .array _ element => typeNames element
  | .vector _ element => typeNames element
  | .struct fields => fieldNames fields
  | .named name => [name]

def fieldNames : List LLVMType → List Text
  | [] => []
  | field :: fields => typeNames field ++ fieldNames fields

end

/-- Definitions without a cycle: each one refers to defined names of lower rank. -/
def Ranked (definitions : TypeDefinitions) (rank : Text → ℕ) : Prop :=
  ∀ name body, definitions name = some body → ∀ other ∈ typeNames body,
    (definitions other).isSome ∧ rank other < rank name

section Memo

variable {definitions : TypeDefinitions} {rank : Text → ℕ} {named named' : Text → Option Extent}
  {next : Text → ExtentCache → Option (Extent × ExtentCache)} {cache cache' cache'' : ExtentCache} {name : Text}
  {extent : Extent} {k m n fuel : ℕ}

theorem structExtentWith_congr {fields : List LLVMType}
    (hfields : ∀ field ∈ fields, (∀ name ∈ typeNames field, named name = named' name) →
      extentWith named field = extentWith named' field)
    (h : ∀ name ∈ fieldNames fields, named name = named' name) (maxAlign offset : ℕ) :
    structExtentWith named maxAlign offset fields = structExtentWith named' maxAlign offset fields := by
  induction fields generalizing maxAlign offset with
  | nil => rfl
  | cons field fields ih =>
    rw [structExtentWith, structExtentWith,
      hfields field List.mem_cons_self fun name hname => h name (List.mem_append_left _ hname)]
    refine congrArg _ (funext fun extent => ?_)
    exact ih (fun other hother => hfields other (List.mem_cons_of_mem _ hother))
      (fun name hname => h name (List.mem_append_right _ hname)) _ _

theorem extentWith_congr (t : LLVMType) (h : ∀ name ∈ typeNames t, named name = named' name) :
    extentWith named t = extentWith named' t := by
  match t with
  | .int _ | .float _ | .ptr | .void => rfl
  | .array count element => rw [extentWith, extentWith, extentWith_congr element h]
  | .vector count element => rw [extentWith, extentWith, extentWith_congr element h]
  | .struct fields => exact structExtentWith_congr (fun field _ h => extentWith_congr field h) h 1 0
  | .named name => exact h name List.mem_cons_self

theorem intExtent_align_pos (bits : ℕ) : 0 < (intExtent bits).align := by
  unfold intExtent
  dsimp only
  split
  · exact Nat.succ_pos _
  · exact Nat.lt_min.2 ⟨(Nat.le_max_left _ _), by decide⟩

theorem namedExtent_stable (hranked : Ranked definitions rank) (hn : rank name < n) (hm : rank name < m) :
    namedExtent definitions n name = namedExtent definitions m name := by
  induction n generalizing m name with
  | zero => omega
  | succ n ih =>
    obtain ⟨m, rfl⟩ : ∃ k, m = k + 1 := ⟨m - 1, by omega⟩
    rw [namedExtent, namedExtent]
    cases hbody : definitions name with
    | none => rfl
    | some body =>
      apply extentWith_congr
      intro other hother
      have := (hranked name body hbody other hother).2
      exact ih (by omega) (by omega)

/-- The extent of a name. -/
def rankedExtent (definitions : TypeDefinitions) (rank : Text → ℕ) (name : Text) : Option Extent :=
  namedExtent definitions (rank name + 1) name

theorem rankedExtent_eq {body : LLVMType} (hranked : Ranked definitions rank) (hbody : definitions name = some body) :
    rankedExtent definitions rank name = extentWith (rankedExtent definitions rank) body := by
  rw [rankedExtent, namedExtent, hbody, Option.bind_some]
  apply extentWith_congr
  intro other hother
  exact namedExtent_stable hranked (hranked name body hbody other hother).2 (Nat.lt_succ_self _)

/-- The entries of rank below `k` are right. -/
def ValidCache (definitions : TypeDefinitions) (rank : Text → ℕ) (k : ℕ) (cache : ExtentCache) : Prop :=
  ∀ name extent, cache name = some extent → rank name < k → rankedExtent definitions rank name = some extent

/-- What measuring a type of rank below `k` does: the extent is that of the plain recursion, and only entries of
rank below `k` are added to the table. -/
def Measures (definitions : TypeDefinitions) (rank : Text → ℕ) (k : ℕ) (cache : ExtentCache) (extent : Option Extent)
    (result : Option (Extent × ExtentCache)) : Prop :=
  ∃ e cache', result = some (e, cache') ∧ extent = some e ∧ ValidCache definitions rank k cache' ∧
    ∀ other, k ≤ rank other → cache' other = cache other

/-- Names of rank below `k` are measured. -/
def MeasuresNames (definitions : TypeDefinitions) (rank : Text → ℕ) (k : ℕ)
    (next : Text → ExtentCache → Option (Extent × ExtentCache)) : Prop :=
  ∀ name cache, (definitions name).isSome → rank name < k → ValidCache definitions rank k cache →
    Measures definitions rank k cache (rankedExtent definitions rank name) (next name cache)

theorem measures_structSizeAlignWith {fields : List LLVMType}
    (hfields : ∀ field ∈ fields, (∀ name ∈ typeNames field, (definitions name).isSome ∧ rank name < k) →
      ∀ cache, ValidCache definitions rank k cache → Measures definitions rank k cache
        (extentWith (rankedExtent definitions rank) field) (sizeAlignWith next field cache))
    (h : ∀ name ∈ fieldNames fields, (definitions name).isSome ∧ rank name < k) (maxAlign offset : ℕ)
    (cache : ExtentCache) (hcache : ValidCache definitions rank k cache) :
    Measures definitions rank k cache
      (structExtentWith (rankedExtent definitions rank) maxAlign offset fields)
      (structSizeAlignWith next maxAlign offset fields cache) := by
  induction fields generalizing maxAlign offset cache with
  | nil => exact ⟨_, cache, rfl, rfl, hcache, fun _ _ => rfl⟩
  | cons field fields ih =>
    obtain ⟨e, cache', hrun, hextent, hvalid, hframe⟩ := hfields field List.mem_cons_self
      (fun name hname => h name (List.mem_append_left _ hname)) cache hcache
    obtain ⟨e', cache'', hrun', hextent', hvalid', hframe'⟩ :=
      ih (fun other hother => hfields other (List.mem_cons_of_mem _ hother))
        (fun name hname => h name (List.mem_append_right _ hname)) (max maxAlign e.align)
        (padTo offset e.align + e.size) cache' hvalid
    refine ⟨e', cache'', ?_, ?_, hvalid', fun other hother => (hframe' other hother).trans (hframe other hother)⟩
    · rw [structSizeAlignWith, hrun]
      exact hrun'
    · rw [structExtentWith, hextent]
      exact hextent'

theorem measures_sizeAlignWith (hnext : MeasuresNames definitions rank k next) (t : LLVMType)
    (h : ∀ name ∈ typeNames t, (definitions name).isSome ∧ rank name < k) (cache : ExtentCache)
    (hcache : ValidCache definitions rank k cache) :
    Measures definitions rank k cache (extentWith (rankedExtent definitions rank) t) (sizeAlignWith next t cache) := by
  match t with
  | .int _ | .float _ | .ptr | .void => exact ⟨_, cache, rfl, rfl, hcache, fun _ _ => rfl⟩
  | .array count element =>
    obtain ⟨e, cache', hrun, hextent, hvalid, hframe⟩ := measures_sizeAlignWith hnext element h cache hcache
    refine ⟨⟨count * e.size, e.align⟩, cache', ?_, ?_, hvalid, hframe⟩
    · rw [sizeAlignWith, hrun]
      rfl
    · rw [extentWith, hextent]
      rfl
  | .vector count element =>
    obtain ⟨e, cache', hrun, hextent, hvalid, hframe⟩ := measures_sizeAlignWith hnext element h cache hcache
    refine ⟨⟨count * e.size, e.align⟩, cache', ?_, ?_, hvalid, hframe⟩
    · rw [sizeAlignWith, hrun]
      rfl
    · rw [extentWith, hextent]
      rfl
  | .struct fields => exact measures_structSizeAlignWith (fun field _ => measures_sizeAlignWith hnext field) h 1 0 cache hcache
  | .named name =>
    obtain ⟨hdefined, hrank⟩ := h name List.mem_cons_self
    rw [sizeAlignWith, extentWith]
    cases hentry : cache name with
    | none => exact hnext name cache hdefined hrank hcache
    | some e => exact ⟨e, cache, rfl, hcache name e hentry hrank, hcache, fun _ _ => rfl⟩

/-- **The memo table gives what the plain recursion gives.** -/
theorem measuresNames_resolve (hranked : Ranked definitions rank) (hk : k ≤ fuel) :
    MeasuresNames definitions rank k (resolve definitions fuel) := by
  induction fuel generalizing k with
  | zero =>
    intro name cache _ hrank
    omega
  | succ fuel ih =>
    intro name cache hdefined hrank hcache
    obtain ⟨body, hbody⟩ := Option.isSome_iff_exists.1 hdefined
    have hinner : ValidCache definitions rank (rank name) (cache.set name ⟨0, 1⟩) := by
      intro other extent hother hlt
      rw [ExtentCache.set, if_neg (by rintro rfl; omega)] at hother
      exact hcache other extent hother (by omega)
    obtain ⟨e, cache', hrun, hextent, hvalid, hframe⟩ := measures_sizeAlignWith (ih (k := rank name) (by omega))
      body (fun other hother => hranked name body hbody other hother) _ hinner
    have hextent : rankedExtent definitions rank name = some e := (rankedExtent_eq hranked hbody).trans hextent
    refine ⟨e, cache'.set name e, ?_, hextent, ?_, ?_⟩
    · rw [resolve, hbody, Option.bind_eq_bind, Option.bind_some, hrun]
      rfl
    · intro other extent hother hlt
      rw [ExtentCache.set] at hother
      split at hother
      · rename_i heq
        rw [heq, hextent]
        exact hother
      · rename_i hne
        by_cases hother' : rank other < rank name
        · exact hvalid other extent hother hother'
        · rw [hframe other (by omega), ExtentCache.set, if_neg hne] at hother
          exact hcache other extent hother hlt
    · intro other hother
      have hne : other ≠ name := by
        rintro rfl
        omega
      rw [ExtentCache.set, if_neg hne, hframe other (by omega), ExtentCache.set, if_neg hne]

end Memo

/-! ## The data layout -/

/-- The alignment of an integer: that of the narrowest width with an alignment of its own that holds it (8, 16, 32,
64 and 128 bits have one), and of the widest one for a wider integer. -/
def dataIntAlign (bits : ℕ) : ℕ :=
  if bits ≤ 8 then 1 else if bits ≤ 16 then 2 else if bits ≤ 32 then 4 else if bits ≤ 64 then 8 else 16

/-- The extent of an integer: its bytes, up to its alignment. -/
def dataIntExtent (bits : ℕ) : Extent := ⟨alignUp ((bits + 7) / 8) (dataIntAlign bits), dataIntAlign bits⟩

namespace IrType

mutual

/-- The extent of a type, with those of the names. -/
def dataExtentWith (named : TypeName → Option Extent) : IrType → Option Extent
  | .int bits => some (dataIntExtent bits)
  | .float => some ⟨4, 4⟩
  | .double => some ⟨8, 8⟩
  | .ptr => some ⟨8, 8⟩
  | .array count element => (dataExtentWith named element).map fun extent => ⟨count * extent.size, extent.align⟩
  | .struct packed fields => (dataExtentsWith named fields).map (structExtent packed)
  | .named name => named name

def dataExtentsWith (named : TypeName → Option Extent) : List IrType → Option (List Extent)
  | [] => some []
  | field :: fields => do return (← dataExtentWith named field) :: (← dataExtentsWith named fields)

end

mutual

/-- The names that a type refers to. -/
def references : IrType → List TypeName
  | .int _ | .float | .double | .ptr => []
  | .array _ element => references element
  | .struct _ fields => fieldReferences fields
  | .named name => [name]

def fieldReferences : List IrType → List TypeName
  | [] => []
  | field :: fields => references field ++ fieldReferences fields

end

mutual

/-- A type and those it is built of. -/
def parts : IrType → List IrType
  | .array count element => .array count element :: parts element
  | .struct packed fields => .struct packed fields :: fieldParts fields
  | t => [t]

def fieldParts : List IrType → List IrType
  | [] => []
  | field :: fields => parts field ++ fieldParts fields

end

end IrType

/-- Named type definitions without a cycle: each one refers to defined names of lower rank. -/
structure TypeTable where
  entries : List (TypeName × IrType)
  nodup : (entries.map Prod.fst).Nodup
  rank : Text → ℕ
  acyclic : ∀ entry ∈ entries, ∀ other ∈ entry.2.references,
    other ∈ entries.map Prod.fst ∧ rank other.reference < rank entry.1.reference

namespace TypeTable

def body (table : TypeTable) (name : TypeName) : Option IrType := table.entries.lookup name

/-- The extent of a name, with fuel for the recursion through the definitions. -/
def namedExtent (table : TypeTable) : ℕ → TypeName → Option Extent
  | 0, _ => none
  | n + 1, name => (table.body name).bind (IrType.dataExtentWith (namedExtent table n))

/-- A type that stands somewhere in a definition. -/
def Occurs (table : TypeTable) (t : IrType) : Prop := ∃ entry ∈ table.entries, t ∈ entry.2.parts

/-- Fuel that is enough. -/
def depth (table : TypeTable) : ℕ := (table.entries.map fun entry => table.rank entry.1.reference + 1).foldl max 0

end TypeTable

/-! ## What the reader makes of a table -/

/-- The type that is read from the text of a type. -/
def readType (t : IrType) : Option LLVMType := parseType (t.render.length + 1) t.render

/-- The definitions that are read; `none` is an error. -/
def readDefinitions (table : TypeTable) : Option TypeDefinitions :=
  (table.entries.mapM fun entry => (readType entry.2).map fun body => (entry.1.reference, body)).map
    fun entries name => entries.lookup name

/-- What `struct_field_layout` gives for fields that stand in these slots. -/
def layoutOf (slots : List Slot) (fields : List LLVMType) : List (ℕ × ℕ × LLVMType) :=
  List.zipWith (fun slot field => (slot.offset, slot.extent.size, field)) slots fields

/-- **The layout of a type is right**: the size and the alignment, with the memo table and without it, are those of
the data layout; and so are the fields of a structure, which stand in order, aligned, apart and inside it. -/
structure AgreesAt (table : TypeTable) (definitions : TypeDefinitions) (fuel : ℕ) (t : IrType) (code : LLVMType)
    (extent : Extent) : Prop where
  parsed : readType t = some code
  memoised : ∃ cache, sizeAlign definitions fuel code (fun _ => none) = some (extent, cache)
  plain : extentWith (namedExtent definitions fuel) code = some extent
  data : t.dataExtentWith (table.namedExtent fuel) = some extent
  fields : ∀ packed fields, t = .struct packed fields → ∃ codes extents, code = .struct codes ∧
    IrType.dataExtentsWith (table.namedExtent fuel) fields = some extents ∧
    structFieldLayout definitions fuel codes = some (layoutOf (placeFields packed 0 extents).1 codes) ∧
    ((placeFields packed 0 extents).1.Pairwise fun first second => first.stop ≤ second.offset) ∧
    ∀ slot ∈ (placeFields packed 0 extents).1, slot.extent.align ∣ slot.offset ∧ slot.stop ≤ extent.size

/-- The reader lays out every type of a table as the data layout does. -/
def LaidOut (table : TypeTable) : Prop :=
  ∀ fuel, table.depth ≤ fuel → ∃ definitions, readDefinitions table = some definitions ∧
    ∀ t, table.Occurs t → ∃ code extent, AgreesAt table definitions fuel t code extent

/-- An integer whose bytes are as many as its alignment, or a multiple of 16. -/
def WholeBytes (bits : ℕ) : Prop := (bits + 7) / 8 ∈ [1, 2, 4, 8] ∨ 16 ∣ (bits + 7) / 8

/-- A type that the reader knows, on its own. -/
def Standard : IrType → Prop
  | .int bits => WholeBytes bits
  | .struct packed _ => packed = false
  | _ => True

/-! ## Where they agree -/

section Agree

variable {named : Text → Option Extent} {namedData : TypeName → Option Extent} {definitions : TypeDefinitions}
  {rank : Text → ℕ} {table : TypeTable} {t : IrType} {code : LLVMType} {extents : List Extent} {codes : List LLVMType}
  {bits offset maxAlign fuel n : ℕ} {extent : Extent} {name : TypeName}

theorem padTo_eq {align : ℕ} (h : 0 < align) : padTo offset align = alignUp offset align := by
  unfold padTo
  split
  · rename_i hne
    exact (alignUp_eq_add h hne).symm
  · rename_i hzero
    exact (alignUp_of_dvd h (Nat.dvd_of_mod_eq_zero (not_not.1 hzero))).symm

/-- The alignment, by the number of bytes. -/
theorem dataIntAlign_eq (bits : ℕ) : dataIntAlign bits =
    if (bits + 7) / 8 ≤ 1 then 1 else if (bits + 7) / 8 ≤ 2 then 2 else if (bits + 7) / 8 ≤ 4 then 4
    else if (bits + 7) / 8 ≤ 8 then 8 else 16 := by
  have h (k : ℕ) : (bits + 7) / 8 ≤ k ↔ bits ≤ 8 * k := by omega
  simp only [dataIntAlign, h, Nat.reduceMul]

theorem intExtent_eq (bits : ℕ) : intExtent bits =
    if (bits + 7) / 8 ≤ 8 then ⟨max 1 ((bits + 7) / 8), max 1 ((bits + 7) / 8)⟩ else ⟨(bits + 7) / 8, 16⟩ := by
  unfold intExtent
  dsimp only
  by_cases h : bits > 64
  · rw [if_pos h, if_neg (by omega)]
  · rw [if_neg h, if_pos (by omega), min_eq_left (by omega)]

/-- **The sizes of integers agree exactly for whole bytes.** -/
theorem intExtent_eq_iff (h : 0 < bits) : intExtent bits = dataIntExtent bits ↔ WholeBytes bits := by
  rw [intExtent_eq, dataIntExtent, dataIntAlign_eq, WholeBytes]
  have hpos : 1 ≤ (bits + 7) / 8 := by omega
  generalize (bits + 7) / 8 = b at hpos
  by_cases hb : b ≤ 8
  · have hall : ∀ b < 9, 1 ≤ b → ((⟨max 1 b, max 1 b⟩ : Extent) =
        ⟨alignUp b (if b ≤ 1 then 1 else if b ≤ 2 then 2 else if b ≤ 4 then 4 else if b ≤ 8 then 8 else 16),
          if b ≤ 1 then 1 else if b ≤ 2 then 2 else if b ≤ 4 then 4 else if b ≤ 8 then 8 else 16⟩ ↔
        b ∈ [1, 2, 4, 8] ∨ 16 ∣ b) := by
      decide
    rw [if_pos hb]
    exact hall b (by omega) hpos
  · rw [if_neg hb, if_neg (by omega), if_neg (by omega), if_neg (by omega), if_neg hb, Extent.mk.injEq,
      and_iff_left rfl]
    constructor
    · intro heq
      exact .inr (heq ▸ dvd_alignUp b 16)
    · rintro (hmem | hdvd)
      · simp at hmem
        omega
      · exact (alignUp_of_dvd (by decide) hdvd).symm

/-- The extents of fields, as the reader and the data layout have them. -/
def FieldExtents (named : Text → Option Extent) (codes : List LLVMType) (extents : List Extent) : Prop :=
  List.Forall₂ (fun code extent => extentWith named code = some extent ∧ 0 < extent.align) codes extents

theorem FieldExtents.align_pos (h : FieldExtents named codes extents) : ∀ field ∈ extents, 0 < field.align := by
  induction h with
  | nil => exact fun _ hfield => nomatch hfield
  | cons hhead _ ih =>
    intro field hfield
    rcases List.mem_cons.1 hfield with rfl | hfield
    · exact hhead.2
    · exact ih field hfield

/-- **The loop over the fields of a structure.** -/
theorem structExtentWith_eq (h : FieldExtents named codes extents) (hmax : 0 < maxAlign) :
    structExtentWith named maxAlign offset codes =
      some ⟨alignUp (placeFields false offset extents).2 ((extents.map Extent.align).foldl max maxAlign),
        (extents.map Extent.align).foldl max maxAlign⟩ := by
  induction h generalizing maxAlign offset with
  | nil =>
    rw [structExtentWith, structEnd]
    split
    · rw [padTo_eq hmax]
      rfl
    · obtain rfl : maxAlign = 1 := by omega
      congr 2
      exact (alignUp_of_dvd Nat.one_pos (Nat.one_dvd _)).symm
  | cons hfield _ ih =>
    obtain ⟨hextent, hpos⟩ := hfield
    rw [structExtentWith, hextent, Option.bind_some, ih (hmax.trans_le (Nat.le_max_left _ _)), padTo_eq hpos]
    rfl

theorem fieldLayoutFrom_eq (hranked : Ranked definitions rank)
    (h : FieldExtents (rankedExtent definitions rank) codes extents) {cache : ExtentCache}
    (hnames : ∀ name ∈ fieldNames codes, (definitions name).isSome ∧ rank name < fuel)
    (hcache : ValidCache definitions rank fuel cache) :
    fieldLayoutFrom definitions fuel offset codes cache =
      some (layoutOf (placeFields false offset extents).1 codes) := by
  induction h generalizing offset cache with
  | nil => rfl
  | @cons field extent codes extents hfield _ ih =>
    obtain ⟨hextent, hpos⟩ := hfield
    obtain ⟨e, cache', hrun, he, hvalid, -⟩ := measures_sizeAlignWith
      (measuresNames_resolve hranked (Nat.le_refl fuel)) field
      (fun name hname => hnames name (List.mem_append_left _ hname)) cache hcache
    obtain rfl : extent = e := Option.some.inj (hextent.symm.trans he)
    have hrest : fieldLayoutFrom definitions fuel (padTo offset extent.align + extent.size) codes cache' =
        some (layoutOf (placeFields false (padTo offset extent.align + extent.size) extents).1 codes) :=
      ih (fun name hname => hnames name (List.mem_append_right _ hname)) hvalid
    rw [fieldLayoutFrom, sizeAlign, hrun]
    dsimp only [Option.bind_eq_bind, Option.bind_some]
    rw [hrest, padTo_eq hpos]
    rfl

namespace IrType

theorem fieldNames_readFields {fields : List IrType}
    (hfields : ∀ field ∈ fields, ∀ code, read field = some code →
      typeNames code = (references field).map TypeName.reference)
    {codes : List LLVMType} (h : readFields fields = some codes) :
    fieldNames codes = (fieldReferences fields).map TypeName.reference := by
  induction fields generalizing codes with
  | nil =>
    cases h
    rfl
  | cons field fields ih =>
    obtain ⟨c, hc, h⟩ := Option.bind_eq_some_iff.1 h
    obtain ⟨cs, hcs, h⟩ := Option.bind_eq_some_iff.1 h
    cases h
    rw [fieldNames, hfields field List.mem_cons_self c hc,
      ih (fun other hother => hfields other (List.mem_cons_of_mem _ hother)) hcs, fieldReferences, List.map_append]

theorem typeNames_read (t : IrType) {code : LLVMType} (h : read t = some code) :
    typeNames code = (references t).map TypeName.reference := by
  match t with
  | .int _ | .float | .double | .ptr =>
    cases h
    rfl
  | .named name =>
    cases h
    rfl
  | .array count element =>
    obtain ⟨e, he, rfl⟩ := Option.map_eq_some_iff.1 h
    have hnames : typeNames e = (references element).map TypeName.reference := typeNames_read element he
    exact hnames
  | .struct packed fields =>
    rw [read] at h
    split at h
    · cases h
    · obtain ⟨codes, hcodes, rfl⟩ := Option.map_eq_some_iff.1 h
      exact fieldNames_readFields (fun field _ _ hc => typeNames_read field hc) hcodes

theorem exists_readFields {fields : List IrType}
    (hfields : ∀ field ∈ fields, (∀ s ∈ parts field, Standard s) → ∃ code, read field = some code)
    (h : ∀ s ∈ fieldParts fields, Standard s) : ∃ codes, readFields fields = some codes := by
  induction fields with
  | nil => exact ⟨[], rfl⟩
  | cons field fields ih =>
    obtain ⟨code, hcode⟩ := hfields field List.mem_cons_self fun s hs => h s (List.mem_append_left _ hs)
    obtain ⟨codes, hcodes⟩ := ih (fun other hother => hfields other (List.mem_cons_of_mem _ hother))
      fun s hs => h s (List.mem_append_right _ hs)
    exact ⟨code :: codes, by rw [readFields, hcode, hcodes]; rfl⟩

/-- A type without packed structures is read. -/
theorem exists_read (t : IrType) (h : ∀ s ∈ parts t, Standard s) : ∃ code, read t = some code := by
  match t with
  | .int _ | .float | .double | .ptr => exact ⟨_, rfl⟩
  | .named name => exact ⟨_, rfl⟩
  | .array count element =>
    obtain ⟨code, hcode⟩ := exists_read element fun s hs => h s (List.mem_cons_of_mem _ hs)
    exact ⟨.array count code, by rw [read, hcode]; rfl⟩
  | .struct packed fields =>
    obtain rfl : packed = false := h _ List.mem_cons_self
    obtain ⟨codes, hcodes⟩ := exists_readFields (fun field _ h => exists_read field h)
      fun s hs => h s (List.mem_cons_of_mem _ hs)
    exact ⟨.struct codes, by rw [read, hcodes]; rfl⟩

/-- The names of types have the same extents. -/
def SameNames (named : Text → Option Extent) (namedData : TypeName → Option Extent) (names : List TypeName) : Prop :=
  ∀ name ∈ names, ∃ extent, named name.reference = some extent ∧ namedData name = some extent ∧ 0 < extent.align

mutual

/-- **The extents agree** for a type of standard parts, when those of its names do. -/
theorem extentWith_read (t : IrType) (hparts : ∀ s ∈ parts t, Standard s)
    (hnames : SameNames named namedData (references t)) {code : LLVMType} (h : read t = some code) :
    ∃ extent, extentWith named code = some extent ∧ dataExtentWith namedData t = some extent ∧ 0 < extent.align := by
  match t with
  | .int bits =>
    cases h
    have hint := (intExtent_eq_iff bits.pos).2 (hparts _ List.mem_cons_self)
    exact ⟨intExtent bits, rfl, congrArg some hint.symm, intExtent_align_pos bits⟩
  | .float =>
    cases h
    exact ⟨⟨4, 4⟩, rfl, rfl, by decide⟩
  | .double =>
    cases h
    exact ⟨⟨8, 8⟩, rfl, rfl, by decide⟩
  | .ptr =>
    cases h
    exact ⟨⟨8, 8⟩, rfl, rfl, by decide⟩
  | .named name =>
    cases h
    exact hnames name List.mem_cons_self
  | .array count element =>
    obtain ⟨e, he, rfl⟩ := Option.map_eq_some_iff.1 h
    obtain ⟨extent, hcode, hdata, hpos⟩ :=
      extentWith_read element (fun s hs => hparts s (List.mem_cons_of_mem _ hs)) hnames he
    refine ⟨⟨count * extent.size, extent.align⟩, ?_, ?_, hpos⟩
    · rw [extentWith, hcode]
      rfl
    · rw [dataExtentWith, hdata]
      rfl
  | .struct packed fields =>
    obtain rfl : packed = false := hparts _ List.mem_cons_self
    obtain ⟨codes, hcodes, rfl⟩ := Option.map_eq_some_iff.1 h
    obtain ⟨extents, hfields, hdata⟩ :=
      fieldExtents_readFields fields (fun s hs => hparts s (List.mem_cons_of_mem _ hs)) hnames hcodes
    have hpos : 0 < structAlign false extents := structAlign_pos
    refine ⟨structExtent false extents, ?_, ?_, hpos⟩
    · rw [extentWith, structExtentWith_eq hfields Nat.one_pos]
      rfl
    · rw [dataExtentWith, hdata]
      rfl

theorem fieldExtents_readFields (fields : List IrType) (hparts : ∀ s ∈ fieldParts fields, Standard s)
    (hnames : SameNames named namedData (fieldReferences fields)) {codes : List LLVMType}
    (h : readFields fields = some codes) :
    ∃ extents, FieldExtents named codes extents ∧ dataExtentsWith namedData fields = some extents := by
  match fields with
  | [] =>
    cases h
    exact ⟨[], List.Forall₂.nil, rfl⟩
  | field :: fields =>
    obtain ⟨code, hcode, h⟩ := Option.bind_eq_some_iff.1 h
    obtain ⟨rest, hrest, h⟩ := Option.bind_eq_some_iff.1 h
    cases h
    obtain ⟨extent, hextent, hdata, hpos⟩ := extentWith_read field
      (fun s hs => hparts s (List.mem_append_left _ hs)) (fun name hname => hnames name (List.mem_append_left _ hname))
      hcode
    obtain ⟨extents, hextents, hdatas⟩ := fieldExtents_readFields fields
      (fun s hs => hparts s (List.mem_append_right _ hs))
      (fun name hname => hnames name (List.mem_append_right _ hname)) hrest
    refine ⟨extent :: extents, List.Forall₂.cons ⟨hextent, hpos⟩ hextents, ?_⟩
    rw [dataExtentsWith, hdata, hdatas]
    rfl

end

theorem fieldParts_subset {fields : List IrType} {t : IrType}
    (hfields : ∀ field ∈ fields, t ∈ parts field → t.parts ⊆ field.parts ∧ t.references ⊆ field.references)
    (h : t ∈ fieldParts fields) : t.parts ⊆ fieldParts fields ∧ t.references ⊆ fieldReferences fields := by
  induction fields with
  | nil => cases h
  | cons field fields ih =>
    rcases List.mem_append.1 h with h | h
    · obtain ⟨hparts, hreferences⟩ := hfields field List.mem_cons_self h
      exact ⟨fun _ hs => List.mem_append_left _ (hparts hs), fun _ hs => List.mem_append_left _ (hreferences hs)⟩
    · obtain ⟨hparts, hreferences⟩ := ih (fun other hother => hfields other (List.mem_cons_of_mem _ hother)) h
      exact ⟨fun _ hs => List.mem_append_right _ (hparts hs), fun _ hs => List.mem_append_right _ (hreferences hs)⟩

/-- What stands in a part of a type stands in the type. -/
theorem parts_subset (u : IrType) {t : IrType} (h : t ∈ parts u) :
    t.parts ⊆ u.parts ∧ t.references ⊆ u.references := by
  match u with
  | .int _ | .float | .double | .ptr | .named _ =>
    obtain rfl := List.mem_singleton.1 h
    exact ⟨List.Subset.refl _, List.Subset.refl _⟩
  | .array count element =>
    rcases List.mem_cons.1 h with rfl | h
    · exact ⟨List.Subset.refl _, List.Subset.refl _⟩
    · obtain ⟨hparts, hreferences⟩ := parts_subset element h
      exact ⟨List.subset_cons_of_subset _ hparts, hreferences⟩
  | .struct packed fields =>
    rcases List.mem_cons.1 h with rfl | h
    · exact ⟨List.Subset.refl _, List.Subset.refl _⟩
    · obtain ⟨hparts, hreferences⟩ := fieldParts_subset (fun field _ h => parts_subset field h) h
      exact ⟨List.subset_cons_of_subset _ hparts, hreferences⟩

end IrType

theorem readType_eq (t : IrType) : readType t = t.read := IrType.parseType_render t _ (Nat.lt_succ_self _)

theorem reference_injective {a b : TypeName} (h : a.reference = b.reference) : a = b := by
  cases a
  cases b
  obtain rfl := (List.cons.inj h).2
  rfl

theorem lookup_eq_some_of_mem {α β : Type} [BEq α] [LawfulBEq α] {entries : List (α × β)} {key : α} {value : β}
    (hkeys : (entries.map Prod.fst).Nodup) (h : (key, value) ∈ entries) : entries.lookup key = some value := by
  obtain ⟨before, after, rfl⟩ := List.append_of_mem h
  refine List.lookup_eq_some_iff.2 ⟨before, after, rfl, fun pair hpair => ?_⟩
  rw [List.map_append, List.nodup_append] at hkeys
  exact bne_iff_ne.2 fun heq => hkeys.2.2 pair.1 (List.mem_map_of_mem hpair) key (by simp) heq.symm

/-- The reader has exactly the definitions of the table. -/
structure Reads (table : TypeTable) (definitions : TypeDefinitions) : Prop where
  read : readDefinitions table = some definitions
  entry : ∀ entry ∈ table.entries, ∃ body, entry.2.read = some body ∧ definitions entry.1.reference = some body
  only : ∀ name body, definitions name = some body → ∃ entry ∈ table.entries, entry.1.reference = name ∧
    entry.2.read = some body

theorem exists_reads (table : TypeTable) (h : ∀ entry ∈ table.entries, ∃ code, entry.2.read = some code) :
    ∃ definitions, Reads table definitions := by
  obtain ⟨read, hread⟩ := mapM_isSome (f := fun entry : TypeName × IrType =>
      (readType entry.2).map fun body => (entry.1.reference, body)) (l := table.entries) fun entry hentry => by
    obtain ⟨code, hcode⟩ := h entry hentry
    rw [readType_eq, hcode]
    rfl
  refine ⟨fun name => read.lookup name, ?_, fun entry hentry => ?_, fun name body hbody => ?_⟩
  · rw [readDefinitions, hread]
    rfl
  · have hkeys : (read.map Prod.fst).Nodup := by
      have hmap : read.map Prod.fst = (table.entries.map Prod.fst).map TypeName.reference := by
        rw [List.map_map]
        apply map_eq_of_mapM hread
        intro entry pair hpair
        obtain ⟨body, -, rfl⟩ := Option.map_eq_some_iff.1 hpair
        rfl
      rw [hmap]
      exact table.nodup.map fun _ _ => reference_injective
    obtain ⟨pair, hmem, hpair⟩ := exists_of_mapM hread hentry
    obtain ⟨body, hbody, rfl⟩ := Option.map_eq_some_iff.1 hpair
    rw [readType_eq] at hbody
    exact ⟨body, hbody, lookup_eq_some_of_mem hkeys hmem⟩
  · obtain ⟨before, after, hsplit, -⟩ := List.lookup_eq_some_iff.1 hbody
    obtain ⟨entry, hentry, hpair⟩ := mem_of_mapM hread (b := (name, body)) (by rw [hsplit]; simp)
    obtain ⟨code, hcode, hpair⟩ := Option.map_eq_some_iff.1 hpair
    cases hpair
    exact ⟨entry, hentry, rfl, by rw [← readType_eq, hcode]⟩

theorem ranked_of_reads (h : Reads table definitions) : Ranked definitions table.rank := by
  intro name body hbody other hother
  obtain ⟨entry, hentry, rfl, hread⟩ := h.only name body hbody
  rw [IrType.typeNames_read entry.2 hread, List.mem_map] at hother
  obtain ⟨reference, hreference, rfl⟩ := hother
  obtain ⟨hmem, hlt⟩ := table.acyclic entry hentry reference hreference
  obtain ⟨target, htarget, rfl⟩ := List.mem_map.1 hmem
  obtain ⟨body', -, hbody'⟩ := h.entry target htarget
  exact ⟨Option.isSome_iff_exists.2 ⟨body', hbody'⟩, hlt⟩

theorem rank_lt_of_depth_le (h : table.depth ≤ fuel) {entry : TypeName × IrType} (hentry : entry ∈ table.entries) :
    table.rank entry.1.reference < fuel := by
  have := (le_foldl_max 0 (table.entries.map fun entry => table.rank entry.1.reference + 1)).2 _
    (List.mem_map_of_mem hentry)
  rw [TypeTable.depth] at h
  omega

/-- **The names of the table have the same extents.** -/
theorem namedExtent_eq (h : Reads table definitions) (hstandard : ∀ t, table.Occurs t → Standard t) (n : ℕ)
    {entry : TypeName × IrType} (hentry : entry ∈ table.entries) (hn : table.rank entry.1.reference < n) :
    ∃ extent, namedExtent definitions n entry.1.reference = some extent ∧
      table.namedExtent n entry.1 = some extent ∧ 0 < extent.align := by
  induction n generalizing entry with
  | zero => omega
  | succ n ih =>
    obtain ⟨body, hread, hbody⟩ := h.entry entry hentry
    have hlookup : table.body entry.1 = some entry.2 := lookup_eq_some_of_mem table.nodup hentry
    rw [namedExtent, TypeTable.namedExtent, hbody, hlookup, Option.bind_some, Option.bind_some]
    apply IrType.extentWith_read entry.2 (fun s hs => hstandard s ⟨entry, hentry, hs⟩) _ hread
    intro reference hreference
    obtain ⟨hmem, hlt⟩ := table.acyclic entry hentry reference hreference
    obtain ⟨target, htarget, rfl⟩ := List.mem_map.1 hmem
    exact ih htarget (by omega)

/-- A type of standard parts is laid out as the data layout says. -/
theorem agreesAt_of_standard (h : Reads table definitions) (hstandard : ∀ t, table.Occurs t → Standard t)
    (hfuel : table.depth ≤ fuel) (ht : table.Occurs t) : ∃ code extent, AgreesAt table definitions fuel t code extent := by
  have hranked := ranked_of_reads h
  obtain ⟨entry, hentry, hpart⟩ := ht
  obtain ⟨hparts, hreferences⟩ := IrType.parts_subset entry.2 hpart
  have hparts : ∀ s ∈ t.parts, Standard s := fun s hs => hstandard s ⟨entry, hentry, hparts hs⟩
  -- the names of the type
  have htarget : ∀ name ∈ t.references, ∃ target ∈ table.entries, target.1 = name ∧
      table.rank name.reference < fuel := by
    intro name hname
    obtain ⟨target, htarget, rfl⟩ := List.mem_map.1 (table.acyclic entry hentry name (hreferences hname)).1
    exact ⟨target, htarget, rfl, rank_lt_of_depth_le hfuel htarget⟩
  have hnames : IrType.SameNames (rankedExtent definitions table.rank) (table.namedExtent fuel) t.references := by
    intro name hname
    obtain ⟨target, hmem, rfl, hlt⟩ := htarget name hname
    obtain ⟨extent, hextent, hdata, hpos⟩ := namedExtent_eq h hstandard fuel hmem hlt
    refine ⟨extent, ?_, hdata, hpos⟩
    rw [rankedExtent, namedExtent_stable hranked (Nat.lt_succ_self _) hlt, hextent]
  obtain ⟨code, hread⟩ := IrType.exists_read t hparts
  have hcode : ∀ name ∈ typeNames code, (definitions name).isSome ∧ table.rank name < fuel := by
    intro name hname
    rw [IrType.typeNames_read t hread, List.mem_map] at hname
    obtain ⟨reference, hreference, rfl⟩ := hname
    obtain ⟨target, hmem, rfl, hlt⟩ := htarget reference hreference
    obtain ⟨body, -, hbody⟩ := h.entry target hmem
    exact ⟨Option.isSome_iff_exists.2 ⟨body, hbody⟩, hlt⟩
  have hempty : ValidCache definitions table.rank fuel fun _ => none := fun _ _ hentry => nomatch hentry
  obtain ⟨extent, hextent, hdata, -⟩ := IrType.extentWith_read t hparts hnames hread
  obtain ⟨e, cache, hrun, he, -, -⟩ := measures_sizeAlignWith
    (measuresNames_resolve hranked (Nat.le_refl fuel)) code hcode _ hempty
  obtain rfl : extent = e := Option.some.inj (hextent.symm.trans he)
  refine ⟨code, extent, (readType_eq t).trans hread, ⟨cache, hrun⟩, ?_, hdata, ?_⟩
  · rw [← hextent]
    apply extentWith_congr
    intro name hname
    exact namedExtent_stable hranked (hcode name hname).2 (Nat.lt_succ_self _)
  · rintro packed fields rfl
    obtain rfl : packed = false := hparts _ List.mem_cons_self
    obtain ⟨codes, hcodes, rfl⟩ := Option.map_eq_some_iff.1 hread
    obtain ⟨extents, hfields, hdatas⟩ := IrType.fieldExtents_readFields fields
      (fun s hs => hparts s (List.mem_cons_of_mem _ hs)) hnames hcodes
    have hpos : ∀ field ∈ extents, 0 < field.align := hfields.align_pos
    obtain ⟨-, hslots, hpairwise⟩ := placeFields_spec false 0 hpos
    refine ⟨codes, extents, rfl, hdatas, fieldLayoutFrom_eq hranked hfields hcode hempty, hpairwise,
      fun slot hslot => ⟨(hslots slot hslot).2.2 rfl, ?_⟩⟩
    have hsize : extent = structExtent false extents := by
      rw [IrType.dataExtentWith, hdatas] at hdata
      exact (Option.some.inj hdata).symm
    rw [hsize]
    exact stop_le_structExtent hpos hslot

/-- **The reader lays out a table as the data layout does exactly** where every integer has whole bytes and no
structure is packed. -/
theorem layout_agrees_iff (table : TypeTable) : LaidOut table ↔ ∀ t, table.Occurs t → Standard t := by
  constructor
  · intro h t ht
    obtain ⟨definitions, -, hagrees⟩ := h table.depth (Nat.le_refl _)
    obtain ⟨code, extent, hat⟩ := hagrees t ht
    have hread := hat.parsed
    rw [readType_eq] at hread
    match t with
    | .int bits =>
      cases hread
      have hcode := hat.plain
      have hdata := hat.data
      rw [extentWith] at hcode
      rw [IrType.dataExtentWith] at hdata
      exact (intExtent_eq_iff bits.pos).1 (Option.some.inj (hcode.trans hdata.symm))
    | .struct true fields => cases hread
    | .struct false fields => rfl
    | .float | .double | .ptr | .array _ _ | .named _ => trivial
  · intro h fuel hfuel
    obtain ⟨definitions, hreads⟩ := exists_reads table fun entry hentry =>
      IrType.exists_read entry.2 fun s hs => h s ⟨entry, hentry, hs⟩
    exact ⟨definitions, hreads.read, fun t ht => agreesAt_of_standard hreads h hfuel ht⟩

end Agree

/-- `%T = type { i8, i24 }` -/
def oddTable : TypeTable where
  entries := [(⟨"T".toList, by decide, by
    intro c hc
    obtain rfl := List.mem_singleton.1 hc
    rfl⟩,
    .struct false [.int 8, .int 24])]
  nodup := List.nodup_singleton _
  rank _ := 0
  acyclic entry hentry other hother := by
    obtain rfl := List.mem_singleton.1 hentry
    cases hother

/-- The reader puts the second field at offset 3, where the data layout has it at offset 4. -/
example : structFieldLayout (fun _ => none) 0 [.int 8, .int 24] = some [(0, 1, .int 8), (3, 3, .int 24)] ∧
    ((IrType.dataExtentsWith (fun _ => none) [.int 8, .int 24]).map fun extents =>
      (placeFields false 0 extents).1.map Slot.offset) = some [0, 4] := ⟨rfl, rfl⟩

theorem not_laidOut_oddTable : ¬LaidOut oddTable := by
  intro h
  obtain ⟨definitions, -, hagrees⟩ := h oddTable.depth (Nat.le_refl _)
  obtain ⟨code, extent, hat⟩ := hagrees (.int 24) ⟨_, List.mem_singleton_self _, by simp [IrType.parts, IrType.fieldParts]⟩
  have hread := hat.parsed
  rw [readType_eq] at hread
  cases hread
  have hcode := hat.plain
  have hdata := hat.data
  rw [extentWith] at hcode
  rw [IrType.dataExtentWith] at hdata
  exact absurd (hcode.trans hdata.symm) (by decide)

end SemantiST.Harness
