import SemantiST.Lib.FloatNumber
import SemantiST.Lib.Python
import SemantiST.Lib.Rust

/-!
# Violation predicates in the intermediate representation

`hazard_condition` (`compiler/stg/src/ir.rs`): the instructions that are built before a hazardous instruction to
say whether it goes wrong.  A value is the expression that computes it; what other instructions compute is read
from an environment.
-/

namespace SemantiST.Stg.Ir

open Lib

/-! ## Values -/

inductive IntPredicate where
  | eq | ne | slt | sgt
deriving DecidableEq

inductive FloatPredicate where
  | oeq | ole | olt | oge | uno
deriving DecidableEq

inductive ArithmeticOperator where
  | add | sub | mul
deriving DecidableEq

inductive FloatValue : FloatFormat → Type
  | const {f : FloatFormat} (x : FloatNumber) : FloatValue f
  | read {f : FloatFormat} (name : ℕ) : FloatValue f
  /-- `fpext`. -/
  | widen (source : FloatValue .single) : FloatValue .double

/-- An integer of a width. -/
inductive IntValue : ℕ → Type
  | const {w : ℕ} (bits : BitVec w) : IntValue w
  | read {w : ℕ} (name : ℕ) : IntValue w
  | add {w : ℕ} (left right : IntValue w) : IntValue w
  | mul {w : ℕ} (left right : IntValue w) : IntValue w
  | and {w : ℕ} (left right : IntValue w) : IntValue w
  | or {w : ℕ} (left right : IntValue w) : IntValue w
  | trunc {w : ℕ} (target : ℕ) (source : IntValue w) : IntValue target
  | zeroExtend {w : ℕ} (target : ℕ) (source : IntValue w) : IntValue target
  | signExtend {w : ℕ} (target : ℕ) (source : IntValue w) : IntValue target
  | compare {w : ℕ} (predicate : IntPredicate) (left right : IntValue w) : IntValue 1
  | floatCompare {f : FloatFormat} (predicate : FloatPredicate) (left right : FloatValue f) : IntValue 1
  | isNull (pointer : ℕ) : IntValue 1
  /-- The second part of what an `llvm.*.with.overflow` intrinsic returns. -/
  | overflows {w : ℕ} (operator : ArithmeticOperator) (signed : Bool) (left right : IntValue w) : IntValue 1

/-- What the other instructions have computed. -/
structure Environment where
  ints : (w : ℕ) → ℕ → BitVec w
  floats : (f : FloatFormat) → ℕ → f.Number
  nulls : ℕ → Bool

def IntPredicate.holds {w : ℕ} : IntPredicate → BitVec w → BitVec w → Bool
  | eq, x, y => x = y
  | ne, x, y => x ≠ y
  | slt, x, y => x.slt y
  | sgt, x, y => y.slt x

def FloatPredicate.holds : FloatPredicate → Option Ordering → Bool
  | oeq, order => order = some .eq
  | ole, order => order = some .lt || order = some .eq
  | olt, order => order = some .lt
  | oge, order => order = some .gt || order = some .eq
  | uno, order => order = none

/-- Whether the result of an operation is out of the range of its type. -/
def ArithmeticOperator.overflows {w : ℕ} (signed : Bool) (x y : BitVec w) : ArithmeticOperator → Bool
  | add => if signed then x.saddOverflow y else x.uaddOverflow y
  | sub => if signed then x.ssubOverflow y else x.usubOverflow y
  | mul => if signed then x.smulOverflow y else x.umulOverflow y

def FloatValue.eval (env : Environment) : {f : FloatFormat} → FloatValue f → FloatNumber
  | _, .const x => x
  | f, .read name => (env.floats f name).1
  | _, .widen source => source.eval env

def IntValue.eval (env : Environment) : {w : ℕ} → IntValue w → BitVec w
  | _, .const bits => bits
  | w, .read name => env.ints w name
  | _, .add left right => left.eval env + right.eval env
  | _, .mul left right => left.eval env * right.eval env
  | _, .and left right => left.eval env &&& right.eval env
  | _, .or left right => left.eval env ||| right.eval env
  | _, .trunc target source => (source.eval env).setWidth target
  | _, .zeroExtend target source => (source.eval env).setWidth target
  | _, .signExtend target source => (source.eval env).signExtend target
  | _, .compare predicate left right => BitVec.ofBool (predicate.holds (left.eval env) (right.eval env))
  | _, .floatCompare predicate left right =>
    BitVec.ofBool (predicate.holds ((left.eval env).order (right.eval env)))
  | _, .isNull pointer => BitVec.ofBool (env.nulls pointer)
  | _, .overflows operator signed left right =>
    BitVec.ofBool (operator.overflows signed (left.eval env) (right.eval env))

/-- A condition is true. -/
def IntValue.Holds (env : Environment) (condition : IntValue 1) : Prop := condition.eval env = 1#1

section Holds

variable {env : Environment} {w : ℕ} {f : FloatFormat}

theorem ofBool_eq_one (b : Bool) : BitVec.ofBool b = 1#1 ↔ b = true := by cases b <;> decide

@[simp]
theorem holds_or {left right : IntValue 1} : (IntValue.or left right).Holds env ↔ left.Holds env ∨ right.Holds env := by
  simp only [IntValue.Holds, IntValue.eval]
  generalize left.eval env = x
  generalize right.eval env = y
  revert x y
  decide

@[simp]
theorem holds_and {left right : IntValue 1} : (IntValue.and left right).Holds env ↔ left.Holds env ∧ right.Holds env := by
  simp only [IntValue.Holds, IntValue.eval]
  generalize left.eval env = x
  generalize right.eval env = y
  revert x y
  decide

@[simp]
theorem holds_compare {predicate : IntPredicate} {left right : IntValue w} :
    (IntValue.compare predicate left right).Holds env ↔ predicate.holds (left.eval env) (right.eval env) = true := by
  rw [IntValue.Holds, IntValue.eval, ofBool_eq_one]

@[simp]
theorem holds_floatCompare {predicate : FloatPredicate} {left right : FloatValue f} :
    (IntValue.floatCompare predicate left right).Holds env ↔
      predicate.holds ((left.eval env).order (right.eval env)) = true := by
  rw [IntValue.Holds, IntValue.eval, ofBool_eq_one]

end Holds

/-! ## Instructions and events -/

inductive DivisionOperator where
  | sdiv | udiv | srem | urem
deriving DecidableEq

/-- An integer operand, of any width. -/
abbrev IntOperand := Σ w : ℕ, IntValue w

/-- A pointer, and the operands after the base of the `getelementptr` that computes it. -/
structure PointerValue where
  name : ℕ
  indices : Option (List IntOperand) := none

inductive Operand where
  | int (value : IntOperand)
  | float (f : FloatFormat) (value : FloatValue f)
  | pointer (value : PointerValue)

/-- The instructions that an event may be attached to. -/
inductive Instruction where
  | divide {w : ℕ} (operator : DivisionOperator) (dividend divisor : IntValue w)
  /-- `fdiv` and `frem`. -/
  | floatDivide {f : FloatFormat} (dividend divisor : FloatValue f)
  | arithmetic {w : ℕ} (operator : ArithmeticOperator) (left right : IntValue w)
  /-- `fadd`, `fsub` and `fmul`, with their result. -/
  | floatArithmetic {f : FloatFormat} (result : FloatValue f)
  /-- `fptosi` and `fptoui`. -/
  | floatToInt {f : FloatFormat} (signed : Bool) (target : ℕ) (source : FloatValue f)
  | call (operands : List Operand)
  | load (pointer : PointerValue)
  | store (value : Operand) (pointer : PointerValue)
  | elementPointer (indices : List IntOperand)
  | trunc {w : ℕ} (target : ℕ) (source : IntValue w)

inductive Hazard where
  | division | modulo | pointerAccess | arithmeticBoundary | dangerousConversion | arrayAccess | other
deriving DecidableEq

structure ArrayDimension where
  lower : Option ℤ
  upper : Option ℤ
deriving DecidableEq

inductive ViolationPredicate where
  | division (signed : Option Bool) (bitWidth : Option ℕ)
  | integerOverflow (operator : Text) (signed : Option Bool) (bitWidth : Option ℕ)
  | arrayBounds (dimensions : List ArrayDimension)
  | pointerNonNull
  | narrowing (sourceBitWidth targetBitWidth : Option ℕ) (signed sourceSigned targetSigned : Option Bool)
      (sourceConstant : Option Text)
  | floatToInteger (sourceBitWidth targetBitWidth : Option ℕ) (signed : Option Bool)

structure MetadataEvent where
  hazard : Option Hazard
  violationPredicate : Option ViolationPredicate

/-! ## Conditions -/

section Conditions

variable {w : ℕ} {f : FloatFormat}

/-- `const_int(1 << (width - 1))`, the least value of a signed type. -/
def minimum (w : ℕ) : IntValue w := .const (BitVec.ofNat w (2 ^ (w - 1)))

def divisionCondition (operator : DivisionOperator) (dividend divisor : IntValue w) : IntValue 1 :=
  let zeroDivisor := IntValue.compare .eq divisor (.const 0)
  if operator ≠ .sdiv then zeroDivisor
  else if w = 0 ∨ 64 < w then zeroDivisor
  else
    let divisorMinusOne := IntValue.compare .eq divisor (.const (BitVec.allOnes w))
    let dividendMin := IntValue.compare .eq dividend (minimum w)
    let overflow := IntValue.and divisorMinusOne dividendMin
    .or zeroDivisor overflow

def floatDivisionCondition (divisor : FloatValue f) : IntValue 1 := .floatCompare .oeq divisor (.const (.finite 0))

/-- The operator that an overflow predicate names. -/
def expectedOperator (operator : Text) : Option ArithmeticOperator :=
  if operator = "+".toList then some .add
  else if operator = "-".toList then some .sub
  else if operator = "*".toList then some .mul
  else none

def overflowCondition (operator : ArithmeticOperator) (left right : IntValue w) :
    Option ViolationPredicate → Option (IntValue 1)
  | some (.integerOverflow name (some signed) _) =>
    if expectedOperator name = some operator then some (.overflows operator signed left right) else none
  | _ => none

def nonFiniteCondition (result : FloatValue f) : IntValue 1 :=
  let nan := IntValue.floatCompare .uno result result
  let positiveInfinity := IntValue.floatCompare .oeq result (.const (.infinite false))
  let negativeInfinity := IntValue.floatCompare .oeq result (.const (.infinite true))
  .or nan (.or positiveInfinity negativeInfinity)

/-- A value in double precision. -/
def widened : {f : FloatFormat} → FloatValue f → FloatValue .double
  | .single, source => .widen source
  | .double, source => source

/-- `float_to_integer_condition`; the limits are doubles, and so the differences below are rounded. -/
def floatToIntegerCondition (source : FloatValue f) (width : ℕ) (signed : Bool) : IntValue 1 :=
  let value := widened source
  let limit := if signed then width - 1 else width
  let upper : ℚ := 2 ^ limit
  let exactLower := !signed || limit < 53
  let lower : ℚ := if signed then -f64 (upper + if exactLower then 1 else 0) else -1
  let below := IntValue.floatCompare (if exactLower then .ole else .olt) value (.const (.finite lower))
  let above := IntValue.floatCompare .oge value (.const (.finite upper))
  let nonFinite := IntValue.floatCompare .uno value value
  .or (.or below above) nonFinite

/-- `integer_constant_fits`. -/
def integerConstantFits (value : Text) (bitWidth : ℕ) (signed : Bool) : Option Bool :=
  if bitWidth = 0 ∨ 128 < bitWidth then none
  else if signed then
    (parseSigned decDigit 10 i128Min i128Max value).map fun value =>
      if bitWidth = 128 then true
      else
        let magnitude : ℤ := 2 ^ (bitWidth - 1)
        decide (-magnitude ≤ value ∧ value ≤ magnitude - 1)
  else if startsWithMinus value then some false
  else
    (parseUnsigned (2 ^ 128 - 1) value).map fun value =>
      let maximum := if bitWidth = 128 then 2 ^ 128 - 1 else 2 ^ bitWidth - 1
      decide (value ≤ maximum)
where
  startsWithMinus (value : Text) : Bool := value.head? = some '-'

/-- `narrowing_condition`: the value is not what its lower bits are extended to. -/
def narrowingCondition (target : ℕ) (source : IntValue w) (predicate : Option ViolationPredicate) : IntValue 1 :=
  let targetSigned :=
    match predicate with
    | some (.narrowing _ _ signed _ targetSigned _) => (targetSigned.or signed).getD false
    | _ => false
  let truncated := source.trunc target
  let restored : IntValue w := if targetSigned then truncated.signExtend w else truncated.zeroExtend w
  .compare .ne source restored

def narrowingConstantCondition : Option ViolationPredicate → Option (IntValue 1)
  | some (.narrowing _ (some targetBitWidth) signed _ targetSigned (some sourceConstant)) => do
    let targetSigned ← targetSigned.or signed
    let fits ← integerConstantFits sourceConstant targetBitWidth targetSigned
    return .const (BitVec.ofBool !fits)
  | _ => none

/-! ### Array indices -/

/-- `get_zero_extended_constant`. -/
def zeroExtendedConstant : {w : ℕ} → IntValue w → Option ℕ
  | w, .const bits => if w ≤ 64 then some bits.toNat else none
  | _, _ => none

def checkedMul (a b : ℕ) : Option ℕ := if a * b ≤ u64Max then some (a * b) else none

/-- The terms of a sum with their coefficients; a constant term other than zero is none. -/
def terms : {w : ℕ} → IntValue w → ℕ → Option (List (ℕ × IntValue w))
  | _, value, coefficient =>
    match zeroExtendedConstant value with
    | some constant => if constant = 0 then some [] else none
    | none =>
      match value with
      | .add left right => do return (← terms left coefficient) ++ (← terms right coefficient)
      | .mul left right =>
        match zeroExtendedConstant left, zeroExtendedConstant right with
        | some multiplier, _ => do terms right (← checkedMul coefficient multiplier)
        | none, some multiplier => do terms left (← checkedMul coefficient multiplier)
        | none, none => some [(coefficient, value)]
      | value => some [(coefficient, value)]

def checkedI64 (value : ℤ) : Option ℤ := if -2 ^ 63 ≤ value ∧ value ≤ 2 ^ 63 - 1 then some value else none

/-- The length of a dimension, computed in `i64`. -/
def dimensionLength (dimension : ArrayDimension) : Option ℕ := do
  let difference ← checkedI64 ((← dimension.upper) - (← dimension.lower))
  let length ← checkedI64 (difference + 1)
  if 0 ≤ length then some length.toNat else none

/-- The strides of an array in row-major order. -/
def stridesOf : List ArrayDimension → Option (List ℕ)
  | [] => some []
  | [_] => some [1]
  | _ :: next :: rest => do
    let strides ← stridesOf (next :: rest)
    let stride ← checkedMul (strides.headD 1) (← dimensionLength next)
    return stride :: strides

/-- A term becomes the index of the first dimension whose stride is its coefficient. -/
def placeTerm (strides : List ℕ) (indices : List (Option (IntValue w))) (component : ℕ × IntValue w) :
    Option (List (Option (IntValue w))) := do
  let position ← strides.findIdx? fun stride => stride = component.1
  match indices[position]? with
  | some none => some (indices.set position (some component.2))
  | _ => none

/-- `flattened_array_indices`. -/
def flattenedArrayIndices (flat : IntValue w) (dimensions : List ArrayDimension) : Option (List (IntValue w)) := do
  let strides ← stridesOf dimensions
  let components ← terms flat 1
  let indices ← components.foldlM (placeTerm strides) (List.replicate dimensions.length none)
  indices.mapM id

/-- The index is out of the bounds of a dimension. -/
def dimensionCondition (dimension : ArrayDimension) (index : IntValue w) : Option (IntValue 1) := do
  let length := (← dimension.upper) - (← dimension.lower) + 1
  if length ≤ 0 ∨ (u64Max : ℤ) < length then none
  else
    let extent := IntValue.const (BitVec.ofNat w (length - 1).toNat)
    let below := IntValue.compare .slt index (.const 0)
    let above := IntValue.compare .sgt index extent
    return .or below above

/-- One of the indices is out of bounds. -/
def boundsCondition (violation : Option (IntValue 1)) : List ArrayDimension → List IntOperand → Option (IntValue 1)
  | dimension :: dimensions, index :: indices => do
    let outside ← dimensionCondition dimension index.2
    boundsCondition (some (match violation with
      | some previous => .or previous outside
      | none => outside)) dimensions indices
  | _, _ => violation

def arrayCondition (dimensions : List ArrayDimension) (operands : List IntOperand) : Option (IntValue 1) := do
  if dimensions = [] then none
  else
    let flat ← operands.getLast?
    if 1 < dimensions.length ∧ operands.length < dimensions.length + 1 then
      let indices ← flattenedArrayIndices flat.2 dimensions
      boundsCondition none dimensions (indices.map fun index => ⟨flat.1, index⟩)
    else if dimensions.length ≤ operands.length then
      boundsCondition none dimensions (operands.drop (operands.length - dimensions.length))
    else none

/-- `hazard_condition`: when the instruction goes wrong, where that can be said exactly. -/
def hazardCondition (instruction : Instruction) (event : MetadataEvent) : Option (IntValue 1) :=
  match event.hazard, instruction with
  | some .division, .divide operator dividend divisor | some .modulo, .divide operator dividend divisor =>
    some (divisionCondition operator dividend divisor)
  | some .division, .floatDivide _ divisor | some .modulo, .floatDivide _ divisor =>
    some (floatDivisionCondition divisor)
  | some .pointerAccess, .load pointer | some .pointerAccess, .store _ pointer => some (.isNull pointer.name)
  | some .arithmeticBoundary, .arithmetic operator left right =>
    overflowCondition operator left right event.violationPredicate
  | some .arithmeticBoundary, .floatArithmetic result => some (nonFiniteCondition result)
  | some .dangerousConversion, .floatToInt signed target source =>
    match event.violationPredicate with
    | some (.floatToInteger _ (some width) (some signed')) =>
      if width = 0 ∨ 64 < width ∨ target ≠ width ∨ signed' ≠ signed then none
      else some (floatToIntegerCondition source width signed)
    | _ => none
  | some .dangerousConversion, .call operands =>
    match event.violationPredicate with
    | some (.floatToInteger _ (some width) (some signed)) =>
      if width = 0 ∨ 64 < width then none
      else operands.findSome? fun operand =>
        match operand with
        | .float _ source => some (floatToIntegerCondition source width signed)
        | _ => none
    | _ => none
  | some .arrayAccess, .load pointer | some .arrayAccess, .store _ pointer =>
    match event.violationPredicate, pointer.indices with
    | some (.arrayBounds dimensions), some operands => arrayCondition dimensions operands
    | _, _ => none
  | some .arrayAccess, .elementPointer operands =>
    match event.violationPredicate with
    | some (.arrayBounds dimensions) => arrayCondition dimensions operands
    | _ => none
  | some .dangerousConversion, .trunc target source =>
    some (narrowingCondition target source event.violationPredicate)
  | some .dangerousConversion, .store value _ =>
    match value with
    | .int ⟨_, .const _⟩ => narrowingConstantCondition event.violationPredicate
    | .int ⟨_, .trunc target source⟩ => some (narrowingCondition target source event.violationPredicate)
    | _ => none
  | _, _ => none

end Conditions

end SemantiST.Stg.Ir
