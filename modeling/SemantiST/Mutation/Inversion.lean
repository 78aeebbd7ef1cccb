import SemantiST.Semantic.Expression
import SemantiST.Lib.Python
import Mathlib.Data.List.Forall2

/-!
# Mutations that invert expressions

`mutate_expression_goal` and `mutate_expression_to_value` (`fuzzer/engine/src/mutations.rs`): values of records for which
an expression has the desired value.
-/

namespace SemantiST.Mutation

open Lib Semantic

/-! ## Numbers -/

def i64Min : ℤ := -2 ^ 63
def i64Max : ℤ := 2 ^ 63 - 1

/-- A result of the saturating operations of `i64`. -/
def saturateI64 (v : ℤ) : ℤ := max i64Min (min v i64Max)

/-- A text without white space. -/
def Plain (value : Text) : Prop := ∀ c ∈ value, isWhitespace c = false

instance (value : Text) : Decidable (Plain value) :=
  List.decidableBAll (fun c => isWhitespace c = false) value

/-- The floating-point numbers of the language, as far as the mutators use them. -/
structure Floats (F : Type) where
  ofInt : ℤ → F
  parse : Text → Option F
  /-- `as f32 as f64`. -/
  single : F → F
  isFinite : F → Bool
  neg : F → F
  add : F → F → F
  sub : F → F → F
  mul : F → F → F
  div : F → F → F
  compare : F → F → Option Ordering
  nextDown : F → F
  nextUp : F → F
  /-- The neighbours of the nearest `f32`. -/
  singleDown : F → F
  singleUp : F → F
  text : F → Text
  singleText : F → Text
  plain_text : ∀ value, Plain (text value)
  plain_singleText : ∀ value, Plain (singleText value)

def parseIntegerValue (value : Text) : Option ℤ :=
  let trimmed := (trim isWhitespace value).filter (· != '_')
  if trimmed.isEmpty then none
  else
    let (negative, digits) :=
      match trimmed with
      | '-' :: rest => (true, rest)
      | '+' :: rest => (false, rest)
      | _ => (false, trimmed)
    let parsed :=
      match stripHexPrefix digits with
      | some hex => parseSigned hexDigit 16 i64Min i64Max hex
      | none => parseSigned decDigit 10 i64Min i64Max digits
    parsed.map fun v => if negative ∧ v ≠ i64Min then -v else v

variable {F : Type} (fl : Floats F)

def parseNumberValue (value : Text) : Option F :=
  let trimmed := (trim isWhitespace value).filter (· != '_')
  if trimmed.isEmpty then none
  else ((parseIntegerValue trimmed).map fl.ofInt).or (fl.parse trimmed)

def typedFloatValue (ty : Text) (value : F) : Option F :=
  if (integerRecordBounds ty).isSome then none
  else
    let value := if ty = "REAL".toList then fl.single value else value
    if fl.isFinite value then some value else none

/-- A comparison, by how its sides compare. -/
def comparisonHolds (operator : Text) (order : Option Ordering) : Option Bool :=
  if operator = "<".toList then some (order = some .lt)
  else if operator = "<=".toList then some (order = some .lt || order = some .eq)
  else if operator = ">".toList then some (order = some .gt)
  else if operator = ">=".toList then some (order = some .gt || order = some .eq)
  else if operator = "=".toList then some (order = some .eq)
  else if operator = "<>".toList then some (order ≠ some .eq)
  else none

/-! ## Evaluation -/

def expressionNumberLiteral : ExpressionKind → Option F
  | .literal (.integer raw) | .literal (.real raw) | .literal (.string raw) | .literal (.wideString raw) =>
    parseNumberValue fl raw
  | _ => none

/-- The record of the variable that an expression is. -/
def expressionRecordIndex (records : List StRecord) (expression : Expression) : Option ℕ :=
  (expressionVariable expression).bind (recordIndex records)

/-- The expression is a variable that something defines. -/
def variableWasWritten (expression : Expression) (definitions : Definitions) : Bool :=
  (expressionVariable expression).any fun symbol => seedVariableWasWritten symbol definitions

section Evaluation

variable (records : List StRecord) (definitions : Definitions)

/-- `expression_number_value` with a number of levels left. -/
def numberValueWithin : ℕ → Expression → Option F
  | 0, _ => none
  | levels + 1, expression =>
    match integerExpressionWithin records definitions (levels + 1) expression with
    | some value => if -2 ^ 53 ≤ value ∧ value ≤ 2 ^ 53 then some (fl.ofInt value) else none
    | none =>
      match expressionRecordIndex records expression with
      | some index =>
        if variableWasWritten expression definitions then none
        else records[index]?.bind fun record =>
          if isFloatType record.ty then (parseNumberValue fl record.value).bind (typedFloatValue fl record.ty)
          else none
      | none =>
        match expressionNumberLiteral fl expression.kind with
        | some value => typedFloatValue fl (expression.typeName.getD "LREAL".toList) value
        | none =>
          match (expressionVariable expression).bind fun symbol => expressionDefinition symbol definitions with
          | some definition => definition.bind (numberValueWithin levels)
          | none =>
            (expressionOperator expression.kind).bind fun operator =>
              match expression.operands with
              | [operand] =>
                (numberValueWithin levels operand).bind fun operand =>
                  if operator = "+".toList then some operand
                  else if operator = "-".toList then some (fl.neg operand)
                  else none
              | [left, right] =>
                (numberValueWithin levels left).bind fun left =>
                  (numberValueWithin levels right).bind fun right =>
                    let operator := toAsciiUppercase operator
                    let value :=
                      if operator = "+".toList then some (fl.add left right)
                      else if operator = "-".toList then some (fl.sub left right)
                      else if operator = "*".toList then some (fl.mul left right)
                      else if operator = "/".toList then
                        if fl.compare right (fl.ofInt 0) = some .eq then none else some (fl.div left right)
                      else none
                    value.bind (typedFloatValue fl (expression.typeName.getD "LREAL".toList))
              | _ => none

def isNot (operator : Text) : Bool := eqIgnoreAsciiCase operator "NOT".toList
def isAnd (operator : Text) : Bool := eqIgnoreAsciiCase operator "AND".toList
def isOr (operator : Text) : Bool := eqIgnoreAsciiCase operator "OR".toList

/-- `evaluate_expression_goal` with a number of levels left. -/
def evaluateGoalWithin : ℕ → Expression → Option Bool
  | 0, _ => none
  | levels + 1, expression =>
    match expression.kind with
    | .literal (.boolean value) => some value
    | kind =>
      match expressionVariable expression with
      | some symbol =>
        match recordIndex records symbol with
        | some index =>
          if seedVariableWasWritten symbol definitions then none
          else records[index]?.bind fun record =>
            if record.ty = "BOOL".toList then (parseWideInteger record.value).map fun value => value ≠ 0 else none
        | none =>
          (expressionDefinition symbol definitions).bind fun definition =>
            definition.bind (evaluateGoalWithin levels)
      | none =>
        (expressionOperator kind).bind fun operator =>
          match expression.operands with
          | [operand] => if isNot operator then (evaluateGoalWithin levels operand).map (! ·) else none
          | [left, right] =>
            if isAnd operator || isOr operator then
              (evaluateGoalWithin levels left).bind fun left =>
                (evaluateGoalWithin levels right).map fun right =>
                  if isAnd operator then left && right else left || right
            else
              match integerExpressionWithin records definitions levels left,
                integerExpressionWithin records definitions levels right with
              | some left, some right => comparisonHolds operator (some (compare left right))
              | _, _ =>
                (numberValueWithin fl records definitions levels left).bind fun left =>
                  (numberValueWithin fl records definitions levels right).bind fun right =>
                    comparisonHolds operator (fl.compare left right)
          | _ => none

/-- The source stops below a depth of 16. -/
def evaluateExpressionGoal (expression : Expression) (depth : ℕ) : Option Bool :=
  evaluateGoalWithin fl records definitions (17 - depth) expression

end Evaluation

/-! ## Edits -/

def setValue (records : List StRecord) (index : ℕ) (value : Text) : List StRecord :=
  records.modify index fun record => { record with value }

/-- The record with the first candidate that makes the comparison as it is to be. -/
def mutateIntegerComparison (record : StRecord) (operator : Text) (fixed : ℤ) (variableOnLeft desired : Bool) :
    Option Text :=
  (integerRecordBounds record.ty).bind fun (low, high) =>
    let candidates := [some fixed, checkedI128 (fixed - 1), checkedI128 (fixed + 1), some low, some high].filterMap id
    let candidate := candidates.find? fun candidate =>
      low ≤ candidate && candidate ≤ high &&
        comparisonHolds operator
          (some (if variableOnLeft then compare candidate fixed else compare fixed candidate)) == some desired &&
        parseWideInteger record.value != some candidate
    candidate.map intText

/-- The text of a floating-point value in a record, where it has one. -/
def numberText (record : StRecord) (value : F) : Text :=
  match typedFloatValue fl record.ty value with
  | none => record.value
  | some value =>
    if record.ty = "REAL".toList then fl.singleText value
    else if record.ty = "LREAL".toList then fl.text value
    else record.value

def mutateFloatComparison (record : StRecord) (operator : Text) (fixed : F) (variableOnLeft desired : Bool) :
    Option Text :=
  if !fl.isFinite fixed then none
  else
    let candidates :=
      if record.ty = "REAL".toList then [fl.single fixed, fl.singleDown fixed, fl.singleUp fixed]
      else [fixed, fl.nextDown fixed, fl.nextUp fixed]
    let current := (parseNumberValue fl record.value).bind (typedFloatValue fl record.ty)
    let candidate := candidates.find? fun candidate =>
      fl.isFinite candidate && current.all (fun current => fl.compare current candidate != some .eq) &&
        comparisonHolds operator
          (if variableOnLeft then fl.compare candidate fixed else fl.compare fixed candidate) == some desired
    candidate.map (numberText fl record)

structure RangeConstraint (F : Type) where
  valueIndex : ℕ
  boundIndex : Option ℕ
  boundValue : F
  isLower : Bool
  inclusive : Bool

section Mutation

variable (definitions : Definitions)

def extractRangeConstraint (records : List StRecord) (levels : ℕ) (expression : Expression) :
    Option (RangeConstraint F) :=
  match expressionOperator expression.kind, expression.operands with
  | some operator, [left, right] =>
    let less := operator = "<".toList ∨ operator = "<=".toList
    let greater := operator = ">".toList ∨ operator = ">=".toList
    let inclusive := operator = "<=".toList ∨ operator = ">=".toList
    if ¬ (less ∨ greater) then none
    else
      let leftIndex := expressionRecordIndex records left
      let rightIndex := expressionRecordIndex records right
      let leftValue := numberValueWithin fl records definitions (levels - 1) left
      let rightValue := numberValueWithin fl records definitions (levels - 1) right
      match leftIndex, rightIndex with
      | some valueIndex, boundIndex =>
        rightValue.map fun boundValue => ⟨valueIndex, boundIndex, boundValue, decide greater, decide inclusive⟩
      | boundIndex, some valueIndex =>
        leftValue.map fun boundValue => ⟨valueIndex, boundIndex, boundValue, decide less, decide inclusive⟩
      | none, none => none
  | _, _ => none

/-- A floating-point record gets the text of a value. -/
def setNumber (records : List StRecord) (index : ℕ) (value : F) : List StRecord :=
  records.modify index fun record => { record with value := numberText fl record value }

def isFloatRecord (records : List StRecord) (index : ℕ) : Bool := (records[index]?).any fun record => isFloatType record.ty

def mutateRangeConjunction (records : List StRecord) (levels : ℕ) (left right : Expression) : List StRecord :=
  match extractRangeConstraint fl definitions records levels left,
    extractRangeConstraint fl definitions records levels right with
  | some first, some second =>
    if first.valueIndex ≠ second.valueIndex ∨ first.isLower = second.isLower then records
    else
      let (lower, upper) := if first.isLower then (first, second) else (second, first)
      if !isFloatRecord records lower.valueIndex then records
      else
        let half (value : F) := fl.div value (fl.ofInt 2)
        let middle (low high : F) := fl.add (half low) (half high)
        let order := fl.compare lower.boundValue upper.boundValue
        if order = some .gt ∨ (order = some .eq ∧ (!lower.inclusive || !upper.inclusive)) then
          match lower.boundIndex, upper.boundIndex with
          | some lowerIndex, some upperIndex =>
            if lowerIndex = upperIndex ∨ lowerIndex = lower.valueIndex ∨ upperIndex = lower.valueIndex ∨
                !isFloatRecord records lowerIndex ∨ !isFloatRecord records upperIndex then records
            else
              let records := setNumber fl records lowerIndex (fl.ofInt 0)
              let records := setNumber fl records upperIndex (fl.ofInt 1)
              setNumber fl records lower.valueIndex (middle (fl.ofInt 0) (fl.ofInt 1))
          | _, _ => records
        else setNumber fl records lower.valueIndex (middle lower.boundValue upper.boundValue)
  | _, _ => records

/-- One side of a comparison that is a record gets a value, for which the comparison is as desired. -/
def mutateSide (records : List StRecord) (levels : ℕ) (expression : Expression) (operator : Text) (desired : Bool)
    (side fixed : Expression) (onLeft : Bool) : Option (List StRecord) :=
  (expressionRecordIndex records side).bind fun index =>
    if variableWasWritten side definitions then none
    else records[index]?.bind fun record =>
      let value :=
        if (integerRecordBounds record.ty).isSome then
          (integerExpressionWithin records definitions levels fixed).bind fun value =>
            mutateIntegerComparison record operator value onLeft desired
        else if isFloatType record.ty then
          (numberValueWithin fl records definitions levels fixed).bind fun value =>
            mutateFloatComparison fl record operator value onLeft desired
        else none
      value.bind fun value =>
        let records := setValue records index value
        if evaluateGoalWithin fl records definitions (levels + 1) expression = some desired then some records else none

def isComparison (operator : Text) : Bool := (comparisonHolds operator none).isSome

/-- `mutate_expression_goal` with a number of levels left. -/
def mutateGoalWithin : ℕ → List StRecord → Expression → Bool → List StRecord × Bool
  | 0, records, _, _ => (records, false)
  | levels + 1, records, expression, desired =>
    match expressionVariable expression with
    | some symbol =>
      match recordIndex records symbol with
      | some index =>
        if seedVariableWasWritten symbol definitions then (records, false)
        else
          let value := if desired then "1".toList else "0".toList
          match records[index]? with
          | none => (records, false)
          | some record =>
            if record.ty ≠ "BOOL".toList then (records, false)
            else if record.value = value then (records, false)
            else (setValue records index value, true)
      | none =>
        match expressionDefinition symbol definitions with
        | some (some definition) => mutateGoalWithin levels records definition desired
        | _ => (records, false)
    | none =>
      match expressionOperator expression.kind with
      | none => (records, false)
      | some operator =>
        match expression.operands with
        | [operand] => if isNot operator then mutateGoalWithin levels records operand !desired else (records, false)
        | [left, right] =>
          if isAnd operator || isOr operator then
            let holds (records : List StRecord) : Bool :=
              evaluateGoalWithin fl records definitions (levels + 1) expression = some desired
            let start :=
              if isAnd operator && desired then mutateRangeConjunction fl definitions records levels left right
              else records
            let needsBoth := isAnd operator == desired
            let edit (records : List StRecord) (operand : Expression) : List StRecord :=
              if evaluateGoalWithin fl records definitions levels operand = some desired then records
              else (mutateGoalWithin levels records operand desired).1
            let first := edit start left
            let edited := if !needsBoth && holds first then first else edit first right
            if holds edited then (edited, (edited.zip records).any fun (new, old) => new.value ≠ old.value)
            else (records, false)
          else if !isComparison operator then (records, false)
          else
            let changed := (mutateSide fl definitions records levels expression operator desired left right true).or
              (mutateSide fl definitions records levels expression operator desired right left false)
            (changed.getD records, changed.isSome)
        | _ => (records, false)

def mutateExpressionGoal (records : List StRecord) (expression : Expression) (desired : Bool) (depth : ℕ) :
    List StRecord × Bool :=
  mutateGoalWithin fl definitions (17 - depth) records expression desired

/-- `evaluate_integer_expression` with a number of levels left. -/
def evaluateIntegerWithin (records : List StRecord) (levels : ℕ) (expression : Expression) : Option ℤ :=
  (integerExpressionWithin records definitions levels expression).filter fun value => i64Min ≤ value && value ≤ i64Max

/-- A second attempt, when the first one failed. -/
def orElse (first : List StRecord × Bool) (second : List StRecord → List StRecord × Bool) : List StRecord × Bool :=
  if first.2 then first else second first.1

/-- The quotient by a factor, where it is exact. -/
def exactQuotient (desired fixed : ℤ) : Option ℤ :=
  if fixed = 0 ∨ (desired = i64Min ∧ fixed = -1) then none
  else if desired.tmod fixed = 0 then some (desired.tdiv fixed)
  else none

/-- What one operand is to be, when the other one is known. -/
def operandGoal (operator : Text) (desired : ℤ) (fixedOnRight : Bool) (fixed : ℤ) : Option ℤ :=
  if operator = "+".toList then some (saturateI64 (desired - fixed))
  else if operator = "-".toList then
    some (if fixedOnRight then saturateI64 (desired + fixed) else saturateI64 (fixed - desired))
  else if operator = "*".toList then exactQuotient desired fixed
  else none

/-- `mutate_expression_to_value` below its first level, with a number of levels left. -/
def mutateToValueWithin : ℕ → List StRecord → Expression → ℤ → List StRecord × Bool
  | 0, records, _, _ => (records, false)
  | levels + 1, records, expression, desired =>
    match expressionRecordIndex records expression with
    | some index =>
      if variableWasWritten expression definitions then (records, false)
      else
        match records[index]? with
        | none => (records, false)
        | some record =>
          if (integerRecordBounds record.ty).any (fun (low, high) => low ≤ desired && desired ≤ high) &&
              parseWideInteger record.value != some desired then (setValue records index (intText desired), true)
          else (records, false)
    | none =>
      match (expressionVariable expression).bind fun symbol => expressionDefinition symbol definitions with
      | some none => (records, false)
      | some (some definition) => mutateToValueWithin levels records definition desired
      | none =>
        match expressionOperator expression.kind, expression.operands with
        | some operator, [left, right] =>
          let operator := toAsciiUppercase operator
          let leftValue := evaluateIntegerWithin definitions records levels left
          let rightValue := evaluateIntegerWithin definitions records levels right
          orElse
            (match rightValue.bind (operandGoal operator desired true) with
            | some goal => mutateToValueWithin levels records left goal
            | none => (records, false))
            fun records =>
              match leftValue.bind (operandGoal operator desired false) with
              | some goal => mutateToValueWithin levels records right goal
              | none => (records, false)
        | _, _ => (records, false)

/-- `mutate_expression_to_value` at depth 0. -/
def mutateExpressionToValue (records : List StRecord) (expression : Expression) (desired : ℤ) : List StRecord × Bool :=
  let (edited, changed) := mutateToValueWithin definitions 16 records expression desired
  if changed ∧ integerExpressionWide edited expression definitions 0 = some desired then (edited, true)
  else (records, false)

end Mutation

/-! ## What mutations edit -/

/-- A record with the same name and type.  A new value is plain, and an integer is in the bounds of its type. -/
structure Edit (old new : StRecord) : Prop where
  name : new.name = old.name
  ty : new.ty = old.ty
  value : new.value = old.value ∨ (Plain new.value ∧ (isFloatType new.ty = true ∨ (recordValue new).isSome))

/-- Only values have changed. -/
def Edited (old new : List StRecord) : Prop := List.Forall₂ Edit old new

theorem Edit.refl (record : StRecord) : Edit record record := ⟨rfl, rfl, Or.inl rfl⟩

theorem Edit.trans {r r' r'' : StRecord} (h : Edit r r') (h' : Edit r' r'') : Edit r r'' := by
  refine ⟨h'.name.trans h.name, h'.ty.trans h.ty, ?_⟩
  rcases h'.value with hsame | hnew
  · rcases h.value with hsame' | ⟨hplain, hfloat | hvalue⟩
    · exact Or.inl (hsame.trans hsame')
    · exact Or.inr ⟨hsame ▸ hplain, Or.inl (h'.ty ▸ hfloat)⟩
    · refine Or.inr ⟨hsame ▸ hplain, Or.inr ?_⟩
      rwa [recordValue, h'.ty, hsame, ← recordValue]
  · exact Or.inr hnew

theorem Edited.refl (records : List StRecord) : Edited records records := List.forall₂_same.2 fun r _ => Edit.refl r

theorem Edited.trans {l l' l'' : List StRecord} (h : Edited l l') (h' : Edited l' l'') : Edited l l'' := by
  induction h generalizing l'' with
  | nil => exact h'
  | cons hhead _ ih =>
    cases h' with
    | cons hhead' htail' => exact .cons (hhead.trans hhead') (ih htail')

/-- Edited records with the same values are the same. -/
theorem Edited.eq_of_values {old new : List StRecord} (h : Edited old new)
    (hsame : ((new.zip old).any fun (new, old) => new.value ≠ old.value) = false) : new = old := by
  induction h with
  | nil => rfl
  | @cons r r' l l' hhead htail ih =>
    rw [List.zip_cons_cons, List.any_cons, Bool.or_eq_false_iff] at hsame
    have hvalue : r'.value = r.value := not_not.1 (of_decide_eq_false hsame.1)
    have hrecord : r' = r := by
      obtain ⟨hname, hty, -⟩ := hhead
      cases r
      cases r'
      simp_all
    rw [hrecord, ih hsame.2]

/-- An edit of one record. -/
theorem edited_modify {records : List StRecord} {index : ℕ} {f : StRecord → StRecord}
    (h : ∀ record, records[index]? = some record → Edit record (f record)) : Edited records (records.modify index f) := by
  induction records generalizing index with
  | nil => simp [Edited]
  | cons record records ih =>
    cases index with
    | zero =>
      rw [List.modify_zero_cons]
      exact .cons (h record rfl) (Edited.refl records)
    | succ index =>
      rw [List.modify_succ_cons]
      exact .cons (Edit.refl record) (ih fun record' hrecord => h record' hrecord)

/-! ### Numerals -/

theorem eq_minus_or_isDigit {v : ℤ} {c : Char} (h : c ∈ intText v) : c = '-' ∨ c.isDigit = true := by
  unfold intText at h
  split at h
  · rcases List.mem_cons.1 h with hminus | hdigit
    · exact Or.inl hminus
    · exact Or.inr (isDigit_of_mem_decimal hdigit)
  · exact Or.inr (isDigit_of_mem_decimal h)

theorem toNat_of_mem_intText {v : ℤ} {c : Char} (h : c ∈ intText v) : 0x2d ≤ c.toNat ∧ c.toNat ≤ 0x39 := by
  rcases eq_minus_or_isDigit h with rfl | hdigit
  · exact ⟨by decide, by decide⟩
  · have hbounds := Char.isDigit_iff_toNat.1 hdigit
    have hlow : (0x30 : ℕ) ≤ c.toNat := hbounds.1
    have hhigh : c.toNat ≤ 0x39 := hbounds.2
    omega

theorem plain_intText (v : ℤ) : Plain (intText v) := by
  intro c h
  have hbounds := toNat_of_mem_intText h
  simp only [isWhitespace, Bool.or_eq_false_iff, Bool.and_eq_false_iff, decide_eq_false_iff_not, beq_eq_false_iff_ne]
  omega

theorem not_eqIgnoreAsciiCase_intText {v : ℤ} {word : Text} (hword : 'E' ∈ word) :
    eqIgnoreAsciiCase (intText v) word = false := by
  apply Bool.eq_false_iff.2
  intro h
  have hmem : 'e' ∈ (intText v).map Char.toLower := by
    rw [eqIgnoreAsciiCase_iff.1 h]
    exact List.mem_map.2 ⟨'E', hword, by decide⟩
  obtain ⟨c, hc, hlower⟩ := List.mem_map.1 hmem
  have hbounds := toNat_of_mem_intText hc
  have hsame : c.toLower = c := by
    rw [← Char.toNat_inj, toNat_toLower, if_neg]
    rintro ⟨hA, -⟩
    omega
  rw [hsame] at hlower
  subst hlower
  revert hbounds
  decide

theorem stripHexPrefix_decimal (n : ℕ) : stripHexPrefix (decimal n) = none := by
  unfold stripHexPrefix
  split
  · rename_i rest heq
    exact absurd (@isDigit_of_mem_decimal n 'x' (by rw [heq]; simp)) (by decide)
  · rename_i rest heq
    exact absurd (@isDigit_of_mem_decimal n 'X' (by rw [heq]; simp)) (by decide)
  · rfl

/-- **A decimal integer reads back.** -/
theorem parseWideInteger_intText {v : ℤ} (hmin : -i128Max ≤ v) (hmax : v ≤ i128Max) :
    parseWideInteger (intText v) = some v := by
  have htrim : (trim isWhitespace (intText v)).filter (· != '_') = intText v := by
    rw [trim_of_trimmed (trimmed_of_forall (plain_intText v)), List.filter_eq_self]
    intro c hc
    have hbounds := toNat_of_mem_intText hc
    refine bne_iff_ne.2 ?_
    rintro rfl
    revert hbounds
    decide
  have hdigits (n : ℕ) (hn : (n : ℤ) ≤ i128Max) :
      parseSigned decDigit 10 i128Min i128Max (decimal n) = some (n : ℤ) := by
    have hplain : (n : ℤ) = if (false : Bool) = true then -(n : ℤ) else n := rfl
    have hin : i128Min ≤ (n : ℤ) ∧ (n : ℤ) ≤ i128Max := ⟨by simp only [i128Min]; omega, hn⟩
    have hdigit : ∀ c ∈ decimal n, c.isDigit = true := fun c hc => isDigit_of_mem_decimal hc
    rw [parseSigned]
    · simp only [readNumber_decimal, Option.bind_some, Bool.false_eq_true, if_false]
      exact if_pos hin
    · intro rest heq
      exact absurd (hdigit '-' (by rw [heq]; exact List.mem_cons_self)) (by decide)
    · intro rest heq
      exact absurd (hdigit '+' (by rw [heq]; exact List.mem_cons_self)) (by decide)
  simp only [parseWideInteger, htrim, @not_eqIgnoreAsciiCase_intText v "TRUE".toList (by decide),
    @not_eqIgnoreAsciiCase_intText v "FALSE".toList (by decide), Bool.false_eq_true, if_false]
  by_cases hv : v < 0
  · have htext : intText v = '-' :: decimal v.natAbs := if_pos hv
    have hcast : (v.natAbs : ℤ) = -v := by omega
    simp only [htext, stripHexPrefix_decimal, hdigits v.natAbs (by omega), Option.bind_some, if_true, hcast, neg_neg]
    rw [checkedI128, if_pos ⟨by simp only [i128Min, i128Max] at *; omega, hmax⟩]
  · have htext : intText v = decimal v.natAbs := if_neg hv
    have hcast : (v.natAbs : ℤ) = v := by omega
    have hdigit : ∀ c ∈ decimal v.natAbs, c.isDigit = true := fun c hc => isDigit_of_mem_decimal hc
    have hplus : (decimal v.natAbs).dropWhile (· == '+') = decimal v.natAbs := by
      cases hd : decimal v.natAbs with
      | nil => rfl
      | cons c rest =>
        rw [List.dropWhile_cons_of_neg]
        intro hc
        rw [beq_iff_eq.1 hc] at hd
        exact absurd (hdigit '+' (by rw [hd]; exact List.mem_cons_self)) (by decide)
    have hminus (digits : Text) : decimal v.natAbs = '-' :: digits → False := fun h =>
      absurd (hdigit '-' (by rw [h]; exact List.mem_cons_self)) (by decide)
    rw [htext]
    simp only [hplus, stripHexPrefix_decimal, hdigits v.natAbs (by omega), Option.bind_some, Bool.false_eq_true,
      if_false, hcast]

theorem integerRecordBounds_bounded {ty : Text} {low high : ℤ} (h : integerRecordBounds ty = some (low, high)) :
    -2 ^ 63 ≤ low ∧ high < 2 ^ 64 := by
  unfold integerRecordBounds at h
  simp only at h
  split_ifs at h <;> (obtain ⟨rfl, rfl⟩ := Prod.mk.inj (Option.some.inj h); exact ⟨by norm_num, by norm_num⟩)

/-- A value in the bounds of a type is the value of a record with its text. -/
theorem recordValue_intText {name ty : Text} {low high v : ℤ} (hbounds : integerRecordBounds ty = some (low, high))
    (hlow : low ≤ v) (hhigh : v ≤ high) : recordValue ⟨name, ty, intText v⟩ = some v := by
  have hrange := integerRecordBounds_bounded hbounds
  simp only [recordValue, hbounds, Option.bind_some]
  rw [parseWideInteger_intText (by simp only [i128Max]; omega) (by simp only [i128Max]; omega)]
  simp [Option.filter, hlow, hhigh]

/-! ### Single records -/

section Records

variable {records records' : List StRecord} {definitions : Definitions}

theorem recordIndex_edited (h : Edited records records') (symbol : Text) :
    recordIndex records' symbol = recordIndex records symbol := by
  have hnames : records'.map StRecord.name = records.map StRecord.name := by
    induction h with
    | nil => rfl
    | cons hhead _ ih => rw [List.map_cons, List.map_cons, hhead.name, ih]
  let named (name : Text) : Bool :=
    let name := normalizedFieldName name
    name == symbol || localPart symbol == some name
  have hindexes (l : List StRecord) :
      l.findIdxs (fun record => named record.name) = (l.map StRecord.name).findIdxs named := by
    rw [List.findIdxs_map]
    rfl
  have hsame : (records'.findIdxs fun record => named record.name) = records.findIdxs fun record => named record.name := by
    rw [hindexes, hindexes, hnames]
  unfold recordIndex
  rw [hsame]

theorem edited_setValue {index : ℕ} {record : StRecord} {value : Text} (hrecord : records[index]? = some record)
    (hedit : Edit record { record with value }) : Edited records (setValue records index value) := by
  apply edited_modify
  intro record' hrecord'
  obtain rfl := Option.some.inj (hrecord.symm.trans hrecord')
  exact hedit

theorem edit_intText {record : StRecord} {low high v : ℤ} (hbounds : integerRecordBounds record.ty = some (low, high))
    (hlow : low ≤ v) (hhigh : v ≤ high) : Edit record { record with value := intText v } := by
  refine ⟨rfl, rfl, Or.inr ⟨plain_intText v, Or.inr ?_⟩⟩
  rw [recordValue_intText hbounds hlow hhigh]
  rfl

theorem mutateIntegerComparison_edit {record : StRecord} {operator value : Text} {fixed : ℤ} {onLeft desired : Bool}
    (h : mutateIntegerComparison record operator fixed onLeft desired = some value) :
    Edit record { record with value } := by
  obtain ⟨⟨low, high⟩, hbounds, h⟩ := Option.bind_eq_some_iff.1 h
  obtain ⟨candidate, hfind, rfl⟩ := Option.map_eq_some_iff.1 h
  have hchosen := List.find?_some hfind
  simp only [Bool.and_eq_true, decide_eq_true_eq] at hchosen
  exact edit_intText hbounds hchosen.1.1.1 hchosen.1.1.2

theorem numberText_edit (record : StRecord) (value : F) :
    Edit record { record with value := numberText fl record value } := by
  refine ⟨rfl, rfl, ?_⟩
  unfold numberText
  split
  · exact Or.inl rfl
  · rename_i value _
    split
    · rename_i hreal
      exact Or.inr ⟨fl.plain_singleText value, Or.inl (by simp [isFloatType, hreal])⟩
    · split
      · rename_i hlreal
        exact Or.inr ⟨fl.plain_text value, Or.inl (by simp [isFloatType, hlreal])⟩
      · exact Or.inl rfl

theorem mutateFloatComparison_edit {record : StRecord} {operator value : Text} {fixed : F} {onLeft desired : Bool}
    (h : mutateFloatComparison fl record operator fixed onLeft desired = some value) :
    Edit record { record with value } := by
  unfold mutateFloatComparison at h
  split at h
  · cases h
  · obtain ⟨candidate, -, rfl⟩ := Option.map_eq_some_iff.1 h
    exact numberText_edit fl record candidate

theorem edited_setNumber (index : ℕ) (value : F) : Edited records (setNumber fl records index value) :=
  edited_modify fun record _ => numberText_edit fl record value

theorem edited_mutateRangeConjunction (levels : ℕ) (left right : Expression) :
    Edited records (mutateRangeConjunction fl definitions records levels left right) := by
  unfold mutateRangeConjunction
  split
  · rename_i first second _ _
    split
    · exact Edited.refl records
    · split
      rename_i lower upper _
      split
      · exact Edited.refl records
      · dsimp only
        split
        · split
          · split
            · exact Edited.refl records
            · exact ((edited_setNumber fl _ _).trans (edited_setNumber fl _ _)).trans (edited_setNumber fl _ _)
          · exact Edited.refl records
        · exact edited_setNumber fl _ _
  · exact Edited.refl records

/-- A changed side of a comparison makes it as desired. -/
theorem mutateSide_eq_some {levels : ℕ} {expression side fixed : Expression} {operator : Text} {desired onLeft : Bool}
    (h : mutateSide fl definitions records levels expression operator desired side fixed onLeft = some records') :
    Edited records records' ∧ evaluateGoalWithin fl records' definitions (levels + 1) expression = some desired := by
  obtain ⟨index, -, h⟩ := Option.bind_eq_some_iff.1 h
  split at h
  · cases h
  obtain ⟨record, hrecord, h⟩ := Option.bind_eq_some_iff.1 h
  obtain ⟨value, hvalue, h⟩ := Option.bind_eq_some_iff.1 h
  have hedit : Edit record { record with value } := by
    split at hvalue
    · obtain ⟨fixed, -, hvalue⟩ := Option.bind_eq_some_iff.1 hvalue
      exact mutateIntegerComparison_edit hvalue
    · split at hvalue
      · obtain ⟨fixed, -, hvalue⟩ := Option.bind_eq_some_iff.1 hvalue
        exact mutateFloatComparison_edit fl hvalue
      · cases hvalue
  dsimp only at h
  split at h
  · rename_i hholds
    obtain rfl := Option.some.inj h
    exact ⟨edited_setValue hrecord hedit, hholds⟩
  · cases h

end Records

/-! ## Outcomes -/

/-- What a mutation does to records: with success the goal holds of edited records, else nothing has changed. -/
structure Sound (records : List StRecord) (Goal : List StRecord → Prop) (outcome : List StRecord × Bool) : Prop where
  edited : Edited records outcome.1
  reached : outcome.2 = true → Goal outcome.1
  unchanged : outcome.2 = false → outcome.1 = records

section Outcomes

variable {records records' : List StRecord} {Goal Goal' : List StRecord → Prop}

theorem Sound.failed : Sound records Goal (records, false) := ⟨Edited.refl records, nofun, fun _ => rfl⟩

theorem Sound.succeeded (hedited : Edited records records') (hgoal : Goal records') :
    Sound records Goal (records', true) := ⟨hedited, fun _ => hgoal, nofun⟩

theorem Sound.imp {outcome : List StRecord × Bool} (h : Sound records Goal outcome)
    (himp : Edited records outcome.1 → Goal outcome.1 → Goal' outcome.1) : Sound records Goal' outcome :=
  ⟨h.edited, fun hsuccess => himp h.edited (h.reached hsuccess), h.unchanged⟩

end Outcomes

/-! ### Goals -/

section Goals

variable (definitions : Definitions) {records : List StRecord} {expression : Expression} {levels : ℕ}

/-- The goal of `mutate_expression_goal`. -/
def GoalHolds (levels : ℕ) (expression : Expression) (desired : Bool) (records : List StRecord) : Prop :=
  evaluateGoalWithin fl records definitions levels expression = some desired

theorem expressionVariable_ne_literal {symbol : Text} (h : expressionVariable expression = some symbol) (value : Bool) :
    expression.kind ≠ .literal (.boolean value) := by
  intro hkind
  rw [expressionVariable, hkind] at h
  cases h

theorem expressionOperator_ne_literal {operator : Text} (h : expressionOperator expression.kind = some operator)
    (value : Bool) : expression.kind ≠ .literal (.boolean value) := by
  intro hkind
  rw [hkind] at h
  cases h

/-- A variable with a record has the value of the record. -/
theorem evaluateGoalWithin_record {symbol : Text} {index : ℕ} {record : StRecord}
    (hvariable : expressionVariable expression = some symbol) (hindex : recordIndex records symbol = some index)
    (hwritten : seedVariableWasWritten symbol definitions = false) (hrecord : records[index]? = some record)
    (hty : record.ty = "BOOL".toList) :
    evaluateGoalWithin fl records definitions (levels + 1) expression =
      (parseWideInteger record.value).map fun value => decide (value ≠ 0) := by
  rw [evaluateGoalWithin]
  split
  · rename_i value hkind
    exact absurd hkind (expressionVariable_ne_literal hvariable value)
  · simp only [hvariable, hindex, hwritten, Bool.false_eq_true, if_false, hrecord, Option.bind_some, if_pos hty]

/-- Another variable has the value of its definition. -/
theorem evaluateGoalWithin_definition {symbol : Text} {definition : Expression}
    (hvariable : expressionVariable expression = some symbol) (hindex : recordIndex records symbol = none)
    (hdefinition : expressionDefinition symbol definitions = some (some definition)) :
    evaluateGoalWithin fl records definitions (levels + 1) expression =
      evaluateGoalWithin fl records definitions levels definition := by
  rw [evaluateGoalWithin]
  split
  · rename_i value hkind
    exact absurd hkind (expressionVariable_ne_literal hvariable value)
  · simp only [hvariable, hindex, hdefinition, Option.bind_some]

theorem evaluateGoalWithin_not {operator : Text} {operand : Expression}
    (hvariable : expressionVariable expression = none) (hoperator : expressionOperator expression.kind = some operator)
    (hoperands : expression.operands = [operand]) (hnot : isNot operator = true) :
    evaluateGoalWithin fl records definitions (levels + 1) expression =
      (evaluateGoalWithin fl records definitions levels operand).map (! ·) := by
  rw [evaluateGoalWithin]
  split
  · rename_i value hkind
    exact absurd hkind (expressionOperator_ne_literal hoperator value)
  · simp only [hvariable, hoperator, hoperands, hnot, if_true, Option.bind_some]

/-- A record of type BOOL gets the desired value. -/
theorem setValue_bool_goal {symbol : Text} {index : ℕ} {record : StRecord} {desired : Bool}
    (hvariable : expressionVariable expression = some symbol) (hindex : recordIndex records symbol = some index)
    (hwritten : seedVariableWasWritten symbol definitions = false) (hrecord : records[index]? = some record)
    (hty : record.ty = "BOOL".toList) :
    Sound records (GoalHolds fl definitions (levels + 1) expression desired)
      (setValue records index (if desired then "1".toList else "0".toList), true) := by
  have hvalue : recordValue ⟨record.name, record.ty, if desired then "1".toList else "0".toList⟩ =
      some (if desired then 1 else 0) := by
    rw [hty]
    cases desired <;> rfl
  have hedited : Edited records (setValue records index (if desired then "1".toList else "0".toList)) := by
    apply edited_setValue hrecord
    have hplain : Plain (if desired then "1".toList else "0".toList) := by
      cases desired <;> decide
    exact ⟨rfl, rfl, Or.inr ⟨hplain, Or.inr ((congrArg Option.isSome hvalue).trans rfl)⟩⟩
  refine Sound.succeeded hedited ?_
  have hnew : (setValue records index (if desired then "1".toList else "0".toList))[index]? =
      some ⟨record.name, record.ty, if desired then "1".toList else "0".toList⟩ := by
    rw [setValue, List.getElem?_modify_eq, hrecord]
    rfl
  unfold GoalHolds
  rw [evaluateGoalWithin_record fl definitions hvariable ((recordIndex_edited hedited symbol).trans hindex) hwritten hnew hty]
  cases desired <;> rfl

/-- **A mutation for a truth value is sound at every level.** -/
theorem mutateGoalWithin_sound (levels : ℕ) (records : List StRecord) (expression : Expression) (desired : Bool) :
    Sound records (GoalHolds fl definitions levels expression desired)
      (mutateGoalWithin fl definitions levels records expression desired) := by
  induction levels generalizing records expression desired with
  | zero => exact Sound.failed
  | succ levels ih =>
    rw [mutateGoalWithin]
    split
    · rename_i symbol hvariable
      split
      · rename_i index hindex
        split
        · exact Sound.failed
        · rename_i hwritten
          have hwritten : seedVariableWasWritten symbol definitions = false := Bool.eq_false_iff.2 hwritten
          dsimp only
          split
          · exact Sound.failed
          · rename_i record hrecord
            split
            · exact Sound.failed
            · rename_i hty
              have hty : record.ty = "BOOL".toList := not_not.1 hty
              by_cases hsame : record.value = if desired then "1".toList else "0".toList
              · rw [if_pos hsame]
                exact Sound.failed
              · rw [if_neg hsame]
                exact setValue_bool_goal fl definitions hvariable hindex hwritten hrecord hty
      · rename_i hindex
        split
        · rename_i definition hdefinition
          refine (ih records definition desired).imp fun hedited hgoal => ?_
          have hindex' := (recordIndex_edited hedited symbol).trans hindex
          exact (evaluateGoalWithin_definition fl definitions hvariable hindex' hdefinition).trans hgoal
        · exact Sound.failed
    · rename_i hvariable
      split
      · exact Sound.failed
      · rename_i operator hoperator
        split
        · rename_i operand hoperands
          split
          · rename_i hnot
            refine (ih records operand !desired).imp fun _ hgoal => ?_
            rw [GoalHolds] at hgoal ⊢
            rw [evaluateGoalWithin_not fl definitions hvariable hoperator hoperands hnot, hgoal, Option.map_some,
              Bool.not_not]
          · exact Sound.failed
        · rename_i left right hoperands
          split
          · extract_lets holds start needsBoth edit first edited
            have hstart : Edited records start := by
              unfold start
              split
              · exact edited_mutateRangeConjunction fl levels left right
              · exact Edited.refl records
            have hedit (edited : List StRecord) (operand : Expression) (h : Edited records edited) :
                Edited records (edit edited operand) := by
              unfold edit
              split
              · exact h
              · exact h.trans (ih edited operand desired).edited
            have hfirst : Edited records first := hedit start left hstart
            have hedited : Edited records edited := by
              unfold edited
              split
              · exact hfirst
              · exact hedit first right hfirst
            split
            · rename_i hholds
              have hgoal : evaluateGoalWithin fl edited definitions (levels + 1) expression = some desired :=
                of_decide_eq_true hholds
              exact ⟨hedited, fun _ => hgoal, hedited.eq_of_values⟩
            · exact Sound.failed
          · split
            · exact Sound.failed
            · dsimp only
              have hside {side fixed : Expression} {onLeft : Bool} {changed : List StRecord}
                  (h : mutateSide fl definitions records levels expression operator desired side fixed onLeft =
                    some changed) : Sound records (GoalHolds fl definitions (levels + 1) expression desired)
                      (changed, true) := by
                obtain ⟨hedited, hgoal⟩ := mutateSide_eq_some fl h
                exact Sound.succeeded hedited hgoal
              cases hleft : mutateSide fl definitions records levels expression operator desired left right true with
              | some changed => exact hside hleft
              | none =>
                cases hright : mutateSide fl definitions records levels expression operator desired right left false with
                | some changed => exact hside hright
                | none => exact Sound.failed
        · exact Sound.failed

end Goals

/-! ### Values -/

section Values

variable (definitions : Definitions) {records : List StRecord}

/-- A second attempt starts from the same records. -/
theorem Sound.orElse {first : List StRecord × Bool} {second : List StRecord → List StRecord × Bool}
    {Goal : List StRecord → Prop} (h : Sound records Goal first) (h' : Sound records Goal (second records)) :
    Sound records Goal (orElse first second) := by
  unfold Mutation.orElse
  split
  · exact h
  · rename_i hfailed
    rw [h.unchanged (Bool.eq_false_iff.2 hfailed)]
    exact h'

/-- A mutation for an integer edits records, or leaves all as they are. -/
theorem mutateToValueWithin_sound (levels : ℕ) (records : List StRecord) (expression : Expression) (desired : ℤ) :
    Sound records (fun _ => True) (mutateToValueWithin definitions levels records expression desired) := by
  induction levels generalizing records expression desired with
  | zero => exact Sound.failed
  | succ levels ih =>
    rw [mutateToValueWithin]
    split
    · split
      · exact Sound.failed
      · split
        · exact Sound.failed
        · rename_i record hrecord
          split
          · rename_i hchange
            rw [Bool.and_eq_true, Option.any_eq_true] at hchange
            obtain ⟨⟨⟨low, high⟩, hbounds, hin⟩, -⟩ := hchange
            simp only [Bool.and_eq_true, decide_eq_true_eq] at hin
            exact Sound.succeeded (edited_setValue hrecord (edit_intText hbounds hin.1 hin.2)) trivial
          · exact Sound.failed
    · split
      · exact Sound.failed
      · exact ih records _ desired
      · split
        · apply Sound.orElse
          · split
            · exact ih records _ _
            · exact Sound.failed
          · split
            · exact ih records _ _
            · exact Sound.failed
        · exact Sound.failed

end Values

/-- A mutation for an integer is sound. -/
theorem mutateExpressionToValue_sound (definitions : Definitions) (records : List StRecord) (expression : Expression)
    (desired : ℤ) :
    Sound records (fun records' => integerExpressionWide records' expression definitions 0 = some desired)
      (mutateExpressionToValue definitions records expression desired) := by
  have hsound := mutateToValueWithin_sound definitions 16 records expression desired
  unfold mutateExpressionToValue
  dsimp only
  split
  · rename_i hsuccess
    exact Sound.succeeded hsound.edited hsuccess.2
  · exact Sound.failed

/-- **Mutations that invert expressions are sound and atomic.**  With success the expression has the desired value on
the edited records; without, the records are as before. -/
theorem mutateExpression_sound (definitions : Definitions) (records : List StRecord) (expression : Expression) :
    (∀ desired : Bool,
      Sound records (fun records' => evaluateExpressionGoal fl records' definitions expression 0 = some desired)
        (mutateExpressionGoal fl definitions records expression desired 0)) ∧
    ∀ desired : ℤ,
      Sound records (fun records' => integerExpressionWide records' expression definitions 0 = some desired)
        (mutateExpressionToValue definitions records expression desired) := by
  constructor
  · intro desired
    exact mutateGoalWithin_sound fl definitions 17 records expression desired
  · intro desired
    exact mutateExpressionToValue_sound definitions records expression desired

end SemantiST.Mutation
