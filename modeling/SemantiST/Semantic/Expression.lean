import Std.Data.ExtTreeMap
import SemantiST.Lib.Map
import SemantiST.Lib.Rust

/-!
# Expressions of the plan

The expression trees a plan holds (`compiler/stg/src/model.rs`) and the evaluator the mutator runs
on them (`fuzzer/engine/src/mutations.rs`): the value of an expression over the records of a seed,
where a variable that is no record stands for the expression that defines it.
-/

namespace SemantiST.Semantic

open Lib

/-! ## Data -/

inductive LiteralValue where
  | null
  | integer (raw : Text)
  | real (raw : Text)
  | boolean (value : Bool)
  | string (raw : Text)
  | wideString (raw : Text)
  | durationNanos (value : ℤ)
  | dateNanos (value : Option ℤ)
  | timeOfDayNanos (value : Option ℤ)
  | dateTimeNanos (value : Option ℤ)
  | array
deriving DecidableEq

inductive ExpressionKind where
  | literal (value : LiteralValue)
  | variable (qualifiedName : Text)
  | binary (operator : Text)
  | unary (operator : Text)
  | call (callee : Option Text)
  | arrayIndex
  | memberAccess (member : Option Text)
  | pointerDeref
  | addressOf
  | cast (targetType : Option Text)
  | directAccess (widthBits : ℕ)
  | hardwareAccess
  | range
  | list
  | caseCondition
  | other (astKind : Text)
deriving DecidableEq

structure Expression where
  kind : ExpressionKind
  typeName : Option Text := none
  reads : List Text := []
  operands : List Expression := []

/-- A record of a seed: its name, its type and the text of its value. -/
structure StRecord where
  name : Text
  ty : Text
  value : Text

/-- The expression each symbol stands for; a symbol whose value is not known stands for nothing. -/
abbrev Definitions := Std.ExtTreeMap Text (Option Expression) compare

/-! ## Names -/

def splitCyclePrefix (name : Text) : Option (ℕ × Text) :=
  (splitOnce '.' name).bind fun (cycle, rest) =>
    if cycle.isEmpty || rest.isEmpty || !cycle.all Char.isDigit then none
    else (parseUnsigned u64Max cycle).map fun n => (n, rest)

def normalizedFieldName (name : Text) : Text :=
  toAsciiUppercase ((splitCyclePrefix name).elim name Prod.snd)

/-- The text after the last dot. -/
def lastSegment (s : Text) : Text := (s.reverse.takeWhile (· != '.')).reverse

/-- The only symbol that an expression reads. -/
def readsOnly (qualified : Text) (reads : List Text) : Bool :=
  match reads with
  | [read] => eqIgnoreAsciiCase read qualified
  | _ => false

/-- The variable an expression is; the compiler wraps a direct identifier in a member access. -/
def expressionVariable (expression : Expression) : Option Text :=
  match expression.kind with
  | .variable qualified => some (toAsciiUppercase qualified)
  | .memberAccess member =>
    match expression.operands with
    | [operand] =>
      match operand.kind, operand.operands, member, expression.typeName, operand.typeName with
      | .variable qualified, [], some member, some typeName, some variableType =>
        if qualified.isEmpty || member.isEmpty || typeName.isEmpty ||
          !eqIgnoreAsciiCase (lastSegment qualified) member ||
          !eqIgnoreAsciiCase typeName variableType ||
          !readsOnly qualified expression.reads || !readsOnly qualified operand.reads then none
        else some (toAsciiUppercase qualified)
      | _, _, _, _, _ => none
    | _ => none
  | _ => none

/-- The local part of a qualified variable. -/
def localPart (symbol : Text) : Option Text := (splitOnce '.' symbol).map Prod.snd

/-- A symbol without its program names a direct local of it. -/
def directLocal (symbol : Text) : Option Text :=
  (localPart symbol).filter fun name => !name.contains '.' && !name.contains ':'

def expressionDefinition (symbol : Text) (definitions : Definitions) : Option (Option Expression) :=
  definitions[symbol]? <|> (directLocal symbol).bind fun name => definitions[name]?

def seedVariableWasWritten (symbol : Text) (definitions : Definitions) : Bool :=
  (expressionDefinition symbol definitions).isSome

/-- The record of a variable, where there is only one. -/
def recordIndex (records : List StRecord) (symbol : Text) : Option ℕ :=
  match records.findIdxs fun record =>
    let name := normalizedFieldName record.name
    name == symbol || localPart symbol == some name with
  | [index] => some index
  | _ => none

/-! ## Numbers -/

def isFloatType (ty : Text) : Bool := ty == "REAL".toList || ty == "LREAL".toList

def integerRecordBounds (ty : Text) : Option (ℤ × ℤ) :=
  let signed (bits : ℕ) : Option (ℤ × ℤ) := some (-2 ^ (bits - 1), 2 ^ (bits - 1) - 1)
  let unsigned (bits : ℕ) : Option (ℤ × ℤ) := some (0, 2 ^ bits - 1)
  if ty = "SINT".toList then signed 8
  else if ty = "INT".toList then signed 16
  else if ty = "DINT".toList then signed 32
  else if ty = "LINT".toList then signed 64
  else if ty = "BOOL".toList then some (0, 1)
  else if ty ∈ ["USINT".toList, "BYTE".toList, "CHAR".toList] then unsigned 8
  else if ty ∈ ["UINT".toList, "WORD".toList, "WCHAR".toList] then unsigned 16
  else if ty ∈ ["UDINT".toList, "DWORD".toList] then unsigned 32
  else if ty ∈ ["ULINT".toList, "LWORD".toList] then unsigned 64
  else none

/-- The result of a checked `i128` operation. -/
def checkedI128 (v : ℤ) : Option ℤ := if i128Min ≤ v ∧ v ≤ i128Max then some v else none

def parseWideInteger (raw : Text) : Option ℤ :=
  let value := (trim isWhitespace raw).filter (· != '_')
  if eqIgnoreAsciiCase value "TRUE".toList then some 1
  else if eqIgnoreAsciiCase value "FALSE".toList then some 0
  else
    let (negative, digits) :=
      match value with
      | '-' :: digits => (true, digits)
      | _ => (false, value.dropWhile (· == '+'))
    let result :=
      match stripHexPrefix digits with
      | some digits => parseSigned hexDigit 16 i128Min i128Max digits
      | none => parseSigned decDigit 10 i128Min i128Max digits
    result.bind fun v => if negative then checkedI128 (-v) else some v

/-- A result lies in the bounds of its type, where the type has bounds. -/
def fitsType (ty : Option Text) (v : ℤ) : Bool :=
  (ty.bind integerRecordBounds).all fun (low, high) => low ≤ v && v ≤ high

/-! ## The evaluator -/

/-- What a literal stands for, where its kind settles it. -/
def literalInteger : ExpressionKind → Option (Option ℤ)
  | .literal (.real _) => some none
  | .literal (.boolean b) => some (some (if b then 1 else 0))
  | .literal (.integer raw) | .literal (.string raw) | .literal (.wideString raw) =>
    some (parseWideInteger raw)
  | _ => none

def expressionOperator : ExpressionKind → Option Text
  | .binary operator | .unary operator => some operator
  | _ => none

def unaryWide (operator : Text) (operand : ℤ) : Option ℤ :=
  if operator = "+".toList then some operand
  else if operator = "-".toList then checkedI128 (-operand)
  else none

def binaryWide (operator : Text) (left right : ℤ) : Option ℤ :=
  if operator = "+".toList then checkedI128 (left + right)
  else if operator = "-".toList then checkedI128 (left - right)
  else if operator = "*".toList then checkedI128 (left * right)
  else if operator = "/".toList ∨ operator = "DIV".toList then
    if right = 0 then none else checkedI128 (left.tdiv right)
  else if operator = "MOD".toList then
    if right = 0 ∨ (left = i128Min ∧ right = -1) then none else some (left.tmod right)
  else none

/-- The value a record gives its variable. -/
def recordValue (record : StRecord) : Option ℤ :=
  (integerRecordBounds record.ty).bind fun (low, high) =>
    (parseWideInteger record.value).filter fun v => low ≤ v && v ≤ high

/-- The evaluator with a number of levels left. -/
def integerExpressionWithin (records : List StRecord) (definitions : Definitions) :
    ℕ → Expression → Option ℤ
  | 0, _ => none
  | levels + 1, expression =>
    if expression.typeName.any isFloatType then none
    else
      let symbol := expressionVariable expression
      match symbol.bind fun x => (recordIndex records x).map fun index => (x, index) with
      | some (x, index) =>
        if seedVariableWasWritten x definitions then none else records[index]?.bind recordValue
      | none =>
        match literalInteger expression.kind with
        | some value => value
        | none =>
          match symbol with
          | some x =>
            (expressionDefinition x definitions).bind fun definition =>
              definition.bind (integerExpressionWithin records definitions levels)
          | none =>
            match expression.operands with
            | [operand] => do
              let operand ← integerExpressionWithin records definitions levels operand
              let operator ← expressionOperator expression.kind
              let result ← unaryWide operator operand
              if fitsType expression.typeName result then some result else none
            | [left, right] => do
              let left ← integerExpressionWithin records definitions levels left
              let right ← integerExpressionWithin records definitions levels right
              let operator ← expressionOperator expression.kind
              let result ← binaryWide operator left right
              if fitsType expression.typeName result then some result else none
            | _ => none

/-- The source stops below a depth of 16. -/
def integerExpressionWide (records : List StRecord) (expression : Expression)
    (definitions : Definitions) (depth : ℕ) : Option ℤ :=
  integerExpressionWithin records definitions (17 - depth) expression

/-! ## What an expression means -/

/-- The integer value of each variable, where it is known. -/
abbrev Store := Text → Option ℤ

/-- A value as a type of the language keeps it: the bits that fit. -/
def convert (ty : Option Text) (v : ℤ) : ℤ :=
  match ty.bind integerRecordBounds with
  | none => v
  | some (low, high) => low + (v - low) % (high - low + 1)

theorem convert_of_fitsType {ty : Option Text} {v : ℤ} (h : fitsType ty v = true) :
    convert ty v = v := by
  unfold convert
  unfold fitsType at h
  cases hb : ty.bind integerRecordBounds with
  | none => rfl
  | some b =>
    obtain ⟨low, high⟩ := b
    simp only [hb, Option.all_some, Bool.and_eq_true, decide_eq_true_eq] at h
    simp only
    rw [Int.emod_eq_of_lt (by omega) (by omega)]
    omega

/-- The integer a literal denotes. -/
def LiteralValue.integerValue : LiteralValue → Option ℤ
  | .boolean b => some (if b then 1 else 0)
  | .integer raw => parseWideInteger raw
  | _ => none

def unaryValue (operator : Text) (operand : ℤ) : Option ℤ :=
  if operator = "+".toList then some operand
  else if operator = "-".toList then some (-operand)
  else none

/-- Division truncates, and a division by zero has no value. -/
def binaryValue (operator : Text) (left right : ℤ) : Option ℤ :=
  if operator = "+".toList then some (left + right)
  else if operator = "-".toList then some (left - right)
  else if operator = "*".toList then some (left * right)
  else if operator = "/".toList ∨ operator = "DIV".toList then
    if right = 0 then none else some (left.tdiv right)
  else if operator = "MOD".toList then if right = 0 then none else some (left.tmod right)
  else none

/-- **The integer value of an expression in a store.**  A floating-point expression has none. -/
def Expression.value (σ : Store) : Expression → Option ℤ
  | ⟨kind, typeName, reads, operands⟩ =>
    if typeName.any isFloatType then none
    else
      match expressionVariable ⟨kind, typeName, reads, operands⟩ with
      | some x => σ x
      | none =>
        match kind with
        | .literal literal => literal.integerValue
        | _ =>
          match expressionOperator kind, operands with
          | some operator, [operand] =>
            (operand.value σ).bind fun v => (unaryValue operator v).map (convert typeName)
          | some operator, [left, right] =>
            (left.value σ).bind fun l => (right.value σ).bind fun r =>
              (binaryValue operator l r).map (convert typeName)
          | _, _ => none

section Value

variable {σ : Store} {e : Expression}

theorem Expression.value_variable {x : Text} (hfloat : e.typeName.any isFloatType = false)
    (hx : expressionVariable e = some x) : e.value σ = σ x := by
  rcases e with ⟨kind, typeName, reads, operands⟩
  rw [value.eq_def]
  simp only
  rw [if_neg (by rw [hfloat]; exact Bool.false_ne_true)]
  simp only [hx]

theorem Expression.value_literal {l : LiteralValue} (hfloat : e.typeName.any isFloatType = false)
    (hkind : e.kind = .literal l) : e.value σ = l.integerValue := by
  rcases e with ⟨kind, typeName, reads, operands⟩
  obtain rfl := hkind
  rw [value.eq_def]
  simp only
  rw [if_neg (by rw [hfloat]; exact Bool.false_ne_true)]
  rfl

theorem Expression.value_unary {operator : Text} {a : Expression}
    (hfloat : e.typeName.any isFloatType = false) (hx : expressionVariable e = none)
    (hop : expressionOperator e.kind = some operator) (hoperands : e.operands = [a]) :
    e.value σ = (a.value σ).bind fun v => (unaryValue operator v).map (convert e.typeName) := by
  rcases e with ⟨kind, typeName, reads, operands⟩
  obtain rfl := hoperands
  rw [value.eq_def]
  simp only
  rw [if_neg (by rw [hfloat]; exact Bool.false_ne_true)]
  simp only [hx]
  cases kind with
  | binary op | unary op =>
    obtain rfl := Option.some.inj hop
    rfl
  | _ => cases hop

theorem Expression.value_binary {operator : Text} {a b : Expression}
    (hfloat : e.typeName.any isFloatType = false) (hx : expressionVariable e = none)
    (hop : expressionOperator e.kind = some operator) (hoperands : e.operands = [a, b]) :
    e.value σ = (a.value σ).bind fun l => (b.value σ).bind fun r =>
      (binaryValue operator l r).map (convert e.typeName) := by
  rcases e with ⟨kind, typeName, reads, operands⟩
  obtain rfl := hoperands
  rw [value.eq_def]
  simp only
  rw [if_neg (by rw [hfloat]; exact Bool.false_ne_true)]
  simp only [hx]
  cases kind with
  | binary op | unary op =>
    obtain rfl := Option.some.inj hop
    rfl
  | _ => cases hop

end Value

/-! ## The checked operations -/

theorem checkedI128_eq_some {v r : ℤ} (h : checkedI128 v = some r) : v = r := by
  unfold checkedI128 at h
  split at h
  · exact Option.some.inj h
  · cases h

theorem unaryWide_eq_some {operator : Text} {a r : ℤ} (h : unaryWide operator a = some r) :
    unaryValue operator a = some r := by
  unfold unaryWide at h
  unfold unaryValue
  by_cases hplus : operator = "+".toList
  · rwa [if_pos hplus] at h ⊢
  rw [if_neg hplus] at h ⊢
  by_cases hminus : operator = "-".toList
  · rw [if_pos hminus] at h ⊢
    rw [checkedI128_eq_some h]
  · rwa [if_neg hminus] at h ⊢

theorem binaryWide_eq_some {operator : Text} {a b r : ℤ} (h : binaryWide operator a b = some r) :
    binaryValue operator a b = some r := by
  unfold binaryWide at h
  unfold binaryValue
  by_cases hplus : operator = "+".toList
  · rw [if_pos hplus] at h ⊢
    rw [checkedI128_eq_some h]
  rw [if_neg hplus] at h ⊢
  by_cases hminus : operator = "-".toList
  · rw [if_pos hminus] at h ⊢
    rw [checkedI128_eq_some h]
  rw [if_neg hminus] at h ⊢
  by_cases htimes : operator = "*".toList
  · rw [if_pos htimes] at h ⊢
    rw [checkedI128_eq_some h]
  rw [if_neg htimes] at h ⊢
  by_cases hdiv : operator = "/".toList ∨ operator = "DIV".toList
  · rw [if_pos hdiv] at h ⊢
    split at h
    · cases h
    · rename_i hzero
      rw [if_neg hzero, checkedI128_eq_some h]
  rw [if_neg hdiv] at h ⊢
  by_cases hmod : operator = "MOD".toList
  · rw [if_pos hmod] at h ⊢
    split at h
    · cases h
    · rename_i hzero
      rw [not_or] at hzero
      rwa [if_neg hzero.1]
  · rwa [if_neg hmod] at h ⊢

end SemantiST.Semantic
