import Mathlib.Data.List.Basic
import SemantiST.Lib.Text

/-!
# The harness ABI

`compiler/harness/abi.py`: the types and parameters of the program under test, the fields a
testcase frame may set and the shared records.  `contract.py` writes them to `abi.json`, where
the engine reads them back as `V3Abi`; both sides are this one description here.
-/

namespace SemantiST

open Lib

/-! ## Types -/

/-- The keys of `SCALAR_TYPES`. -/
inductive ScalarType where
  | bool | sint | usint | byte | char
  | int | uint | word | wchar
  | dint | udint | dword
  | lint | ulint | lword
  | real | lreal
  | time | ltime | date | ldate
  | dateAndTime | dt | ldateAndTime | ldt
  | timeOfDay | tod | ltimeOfDay | ltod
  deriving DecidableEq

namespace ScalarType

/-- The ST name, which is also the type token of a testcase record. -/
def name : ScalarType → Text
  | bool => "BOOL".toList
  | sint => "SINT".toList
  | usint => "USINT".toList
  | byte => "BYTE".toList
  | char => "CHAR".toList
  | int => "INT".toList
  | uint => "UINT".toList
  | word => "WORD".toList
  | wchar => "WCHAR".toList
  | dint => "DINT".toList
  | udint => "UDINT".toList
  | dword => "DWORD".toList
  | lint => "LINT".toList
  | ulint => "ULINT".toList
  | lword => "LWORD".toList
  | real => "REAL".toList
  | lreal => "LREAL".toList
  | time => "TIME".toList
  | ltime => "LTIME".toList
  | date => "DATE".toList
  | ldate => "LDATE".toList
  | dateAndTime => "DATE_AND_TIME".toList
  | dt => "DT".toList
  | ldateAndTime => "LDATE_AND_TIME".toList
  | ldt => "LDT".toList
  | timeOfDay => "TIME_OF_DAY".toList
  | tod => "TOD".toList
  | ltimeOfDay => "LTIME_OF_DAY".toList
  | ltod => "LTOD".toList

/-- The C type of `SCALAR_TYPES`. -/
def cType : ScalarType → Text
  | bool | usint | byte | char => "uint8_t".toList
  | sint => "int8_t".toList
  | int => "int16_t".toList
  | uint | word | wchar => "uint16_t".toList
  | dint => "int32_t".toList
  | udint | dword => "uint32_t".toList
  | ulint | lword => "uint64_t".toList
  | real => "float".toList
  | lreal => "double".toList
  | lint | time | ltime | date | ldate | dateAndTime | dt | ldateAndTime | ldt
  | timeOfDay | tod | ltimeOfDay | ltod => "int64_t".toList

/-- The size in bytes of `SCALAR_TYPES`. -/
def size : ScalarType → ℕ
  | bool | sint | usint | byte | char => 1
  | int | uint | word | wchar => 2
  | dint | udint | dword | real => 4
  | lint | ulint | lword | lreal | time | ltime | date | ldate | dateAndTime | dt | ldateAndTime
  | ldt | timeOfDay | tod | ltimeOfDay | ltod => 8

/-- `REAL` or `LREAL`. -/
def isReal : ScalarType → Bool
  | real | lreal => true
  | _ => false

/-- The names both validators list as unsigned. -/
def unsignedNames : List Text :=
  ["USINT", "BYTE", "CHAR", "UINT", "WORD", "WCHAR", "UDINT", "DWORD", "ULINT", "LWORD"].map
    String.toList

/-- The test both validators make: an unsigned C type, or a name of the list. -/
def unsigned (t : ScalarType) : Bool :=
  "uint".toList.isPrefixOf t.cType || unsignedNames.contains t.name

end ScalarType

/-- `TypeSpec`: the resolved type of a parameter. -/
inductive TypeSpec where
  | scalar (type : ScalarType)
  | string (wide : Bool) (length : ℕ)
  | array (element : TypeSpec) (count : ℕ)
  | pointer (element : TypeSpec)
  | aggregate (name : Text) (size : ℕ)
  deriving DecidableEq

namespace TypeSpec

/-- `byte_size()`. -/
def byteSize : TypeSpec → ℕ
  | scalar t => t.size
  | string wide length => (length + 1) * if wide then 2 else 1
  | array element count => count * element.byteSize
  | pointer _ => 8
  | aggregate _ size => size

/-- `type_token` of `frames.py` and of `v3.rs`. -/
def typeToken : TypeSpec → Text
  | scalar t => t.name
  | string wide _ => if wide then "WSTRING".toList else "STRING".toList
  | pointer _ => "POINTER".toList
  | array _ _ | aggregate _ _ => "ARRAY".toList

/-- `default_for_spec` of `frames.py` and `default_for` of `v3.rs`. -/
def defaultFor : TypeSpec → Text
  | scalar t => if t.isReal then "0.0".toList else "0".toList
  | string _ _ => "A".toList
  | array _ _ | pointer _ | aggregate _ _ => "0x00".toList

end TypeSpec

/-! ## Parameters -/

/-- The declaration block of a parameter (the values of `ROLE_BLOCKS`). -/
inductive BlockKind where
  | varInput | varOutput | varInOut | var | varTemp | ret
  deriving DecidableEq

structure Param where
  name : Text
  spec : TypeSpec
  blockKind : BlockKind
  constant : Bool := false
  deriving DecidableEq

/-- A letter or an underscore: what starts an ST identifier. -/
def isIdentStart (c : Char) : Bool := c.isAlpha || c == '_'

/-- An ST identifier. -/
def isIdent : Text → Bool
  | [] => false
  | c :: s => isIdentStart c && s.all fun d => isIdentStart d || d.isDigit

/-- The record name that selects the init profile. -/
def reservedInit : Text := "__INIT".toList

/-- The field name of a frame's time step. -/
def reservedDt : Text := "__DT".toList

/-- A name a parameter can have: an identifier that the testcase format does not reserve. -/
def isFieldName (s : Text) : Bool :=
  isIdent s && !eqIgnoreAsciiCase s reservedInit && !eqIgnoreAsciiCase s reservedDt

/-! ### Identifier characters -/

/-- The characters of an identifier lie between `0` and `z`. -/
theorem identChar_range {c : Char} (h : (isIdentStart c || c.isDigit) = true) :
    48 ≤ c.toNat ∧ c.toNat ≤ 122 := by
  rw [isIdentStart, Bool.or_eq_true, Bool.or_eq_true, beq_iff_eq] at h
  rcases h with (h | rfl) | h
  · rcases isAlpha_cases h with h | h
    · have := isUpper_range h
      omega
    · have := isLower_range h
      omega
  · decide
  · have := isDigit_range h
    omega

theorem isIdent_chars {s : Text} (h : isIdent s = true) :
    s ≠ [] ∧ ∀ c ∈ s, 48 ≤ c.toNat ∧ c.toNat ≤ 122 := by
  cases s with
  | nil => cases h
  | cons c s =>
    simp only [isIdent, Bool.and_eq_true, List.all_eq_true] at h
    refine ⟨List.cons_ne_nil _ _, fun d hd => identChar_range ?_⟩
    rcases List.mem_cons.1 hd with rfl | hd
    · simp [h.1]
    · exact h.2 d hd

/-- A character outside that range is in no identifier. -/
theorem not_mem_isIdent {s : Text} (h : isIdent s = true) {c : Char}
    (hc : c.toNat < 48 ∨ 122 < c.toNat) : c ∉ s := by
  intro hmem
  have := (isIdent_chars h).2 c hmem
  omega

theorem isFieldName_isIdent {s : Text} (h : isFieldName s = true) : isIdent s = true := by
  simp only [isFieldName, Bool.and_eq_true] at h
  exact h.1.1

inductive PouKind where
  | functionBlock | function
  deriving DecidableEq

/-- `TargetAbi`.  ST names are identifiers and ignore case, so no two parameters share one; a
function has no stored members, and the parameters of a function block are among its members. -/
structure TargetAbi where
  kind : PouKind
  params : List Param
  stateFields : List Param
  fieldName : ∀ p ∈ stateFields ++ params, isFieldName p.name = true
  oneName : ∀ p ∈ stateFields ++ params, ∀ q ∈ stateFields ++ params,
    eqIgnoreAsciiCase p.name q.name = true → p = q
  nodup_params : params.Nodup
  nodup_stateFields : stateFields.Nodup
  members : match kind with
    | .functionBlock => params = stateFields.filter fun p =>
        p.blockKind = .varInput ∨ p.blockKind = .varInOut
    | .function => stateFields = []

namespace TargetAbi

/-- Inputs that a testcase frame can write. -/
def frameParams (abi : TargetAbi) : List Param :=
  abi.params.filter fun p => p.blockKind = .varInput ∧ !p.constant

/-- The members `shared_params` collects: VAR_IN_OUT storage and constant inputs. -/
def isShared (p : Param) : Bool :=
  p.blockKind = .varInOut ∨ (p.blockKind = .varInput ∧ p.constant)

/-- The loop of `shared_params`, with the upper-case names seen so far. -/
def collectShared : List Text → List Param → List Param
  | _, [] => []
  | seen, p :: ps =>
    if isShared p ∧ toAsciiUppercase p.name ∉ seen then
      p :: collectShared (toAsciiUppercase p.name :: seen) ps
    else collectShared seen ps

theorem mem_collectShared {seen : List Text} {ps : List Param} {p : Param}
    (h : p ∈ collectShared seen ps) : p ∈ ps ∧ isShared p = true := by
  induction ps generalizing seen with
  | nil => simp [collectShared] at h
  | cons q ps ih =>
    unfold collectShared at h
    split at h
    · rename_i hq
      rcases List.mem_cons.1 h with rfl | h
      · exact ⟨List.mem_cons_self, hq.1⟩
      · exact ⟨List.mem_cons_of_mem _ (ih h).1, (ih h).2⟩
    · exact ⟨List.mem_cons_of_mem _ (ih h).1, (ih h).2⟩

def sharedParams (abi : TargetAbi) : List Param := collectShared [] abi.stateFields

/-- `frame_action_params`, and `action_fields` of the engine: the fields a testcase may update
each scan, VAR_IN_OUT storage included. -/
def frameActionParams (abi : TargetAbi) : List Param :=
  abi.frameParams ++ abi.sharedParams.filter fun p => p.blockKind = .varInOut

variable {abi : TargetAbi} {p : Param}

theorem mem_of_mem_sharedParams (h : p ∈ abi.sharedParams) : p ∈ abi.stateFields ++ abi.params :=
  List.mem_append_left _ (mem_collectShared h).1

theorem mem_of_mem_frameActionParams (h : p ∈ abi.frameActionParams) :
    p ∈ abi.stateFields ++ abi.params := by
  rcases List.mem_append.1 h with h | h
  · exact List.mem_append_right _ (List.mem_of_mem_filter h)
  · exact mem_of_mem_sharedParams (List.mem_of_mem_filter h)

end TargetAbi

end SemantiST
