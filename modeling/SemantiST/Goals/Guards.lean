import SemantiST.Goals.Distance

/-!
# Guards and the distance of a path

A guard is a comparison of a field with an integer, possibly under `NOT` and `AND`.  The conditions of
a task forget the `NOT` and the path of a guard, and of a field they keep the last name only, so the sum
of a path tells whether the comparisons under all guards of the task hold for the values under these names.
-/

namespace SemantiST.Goals

open Lib Semantic

/-! ## What a guard says -/

def valueOf (values : Values) (field : Text) : ℤ := (valueForField values field).getD 0

def relation (op : Text) (a b : ℤ) : Bool :=
  if op = "=".toList ∨ op = "==".toList then a = b
  else if op = "!=".toList ∨ op = "<>".toList then a ≠ b
  else if op = ">".toList then a > b
  else if op = ">=".toList then a ≥ b
  else if op = "<".toList then a < b
  else a ≤ b

/-- The path of a variable or a member.  The compiler wraps a direct identifier in a member access with one
operand; a member of another variable has two, that variable and the member's own name. -/
def fieldPath : Expression → Option Text
  | ⟨.variable qualifiedName, _, _, _⟩ => some qualifiedName
  | ⟨.memberAccess _, _, _, [identifier]⟩ => fieldPath identifier
  | ⟨.memberAccess (some member), _, _, [base, _]⟩ => (fieldPath base).map fun path => path ++ '.' :: member
  | _ => none

/-- The value of a field is that of its path. -/
def pathValue (ρ : Text → ℤ) (expression : Expression) : ℤ := ρ ((fieldPath expression).getD [])

/-- What the observer takes for the value of a field: the one it has under the last name of the path. -/
def observedValue (values : Values) (expression : Expression) : ℤ := valueOf values ((memberName expression).getD [])

section

variable (u : UnicodeData) (values : Values)

/-- A field, with its last name. -/
inductive IsField : Expression → Text → Prop where
  | name (qualifiedName : Text) (typeName : Option Text) (reads : List Text) :
    IsField ⟨.variable qualifiedName, typeName, reads, []⟩ (lastSegment qualifiedName)
  | identifier (member : Text) (typeName : Option Text) (reads : List Text) (qualifiedName : Text)
    (typeName' : Option Text) (reads' : List Text) :
    IsField ⟨.memberAccess (some member), typeName, reads, [⟨.variable qualifiedName, typeName', reads', []⟩]⟩ member
  | member (member : Text) (typeName : Option Text) (reads : List Text) {base : Expression} {field : Text}
    (h : IsField base field) (qualifiedName : Text) (typeName' : Option Text) (reads' : List Text) :
    IsField ⟨.memberAccess (some member), typeName, reads,
      [base, ⟨.variable qualifiedName, typeName', reads', []⟩]⟩ member

structure IsConstant (expression : Expression) (value : ℤ) : Prop where
  literal_eq : literal u expression = some (.integer value)
  operands_eq : expression.operands = []

inductive IsGuard : Expression → Prop where
  | field {op : Text} {typeName : Option Text} {reads : List Text} {left right : Expression} {field : Text}
    {value : ℤ} (hop : op ∈ comparisonOperators) (hleft : IsField left field) (hfield : field ≠ [])
    (hright : IsConstant u right value) : IsGuard ⟨.binary op, typeName, reads, [left, right]⟩
  | constant {op : Text} {typeName : Option Text} {reads : List Text} {left right : Expression} {field : Text}
    {value : ℤ} (hop : op ∈ comparisonOperators) (hleft : IsConstant u left value)
    (hright : IsField right field) (hfield : field ≠ []) :
    IsGuard ⟨.binary op, typeName, reads, [left, right]⟩
  | paren {typeName : Option Text} {reads : List Text} {operand : Expression} (h : IsGuard operand) :
    IsGuard ⟨.list, typeName, reads, [operand]⟩
  | not {typeName : Option Text} {reads : List Text} {operand : Expression} (h : IsGuard operand) :
    IsGuard ⟨.unary "NOT".toList, typeName, reads, [operand]⟩
  | and {typeName : Option Text} {reads : List Text} {left right : Expression} (hleft : IsGuard left)
    (hright : IsGuard right) : IsGuard ⟨.binary "AND".toList, typeName, reads, [left, right]⟩

variable (value : Expression → ℤ)

/-- The value of a side of a comparison. -/
def operandValue (expression : Expression) : ℤ :=
  match literal u expression with
  | some (.integer constant) => constant
  | _ => value expression

/-- A guard holds for the values of the fields. -/
def holds : Expression → Bool
  | ⟨.list, _, _, [operand]⟩ => holds operand
  | ⟨.unary _, _, _, [operand]⟩ => !holds operand
  | ⟨.binary op, _, _, [left, right]⟩ =>
    if op = "AND".toList then holds left && holds right
    else relation op (operandValue u value left) (operandValue u value right)
  | _ => false

/-- The comparisons under a guard. -/
def comparisons : Expression → List Expression
  | ⟨.list, _, _, [operand]⟩ => comparisons operand
  | ⟨.unary _, _, _, [operand]⟩ => comparisons operand
  | ⟨.binary op, typeName, reads, [left, right]⟩ =>
    if op = "AND".toList then comparisons left ++ comparisons right
    else [⟨.binary op, typeName, reads, [left, right]⟩]
  | _ => []

/-- The fields of a comparison have values. -/
def Covered (comparison : Expression) : Prop :=
  ∀ operand ∈ comparison.operands, ∀ field, memberName operand = some field →
    (valueForField values field).isSome

/-- What is observed of a valuation: the values of variables of a program. -/
def Observes (program : Text) (ρ : Text → ℤ) : Prop :=
  ∀ name value, values[name]? = some value → value.val = ρ (program ++ '.' :: name)

/-- The field of a comparison is a variable of the program that is observed. -/
def Plain (program : Text) (comparison : Expression) : Prop :=
  ∀ operand ∈ comparison.operands, ∀ field, memberName operand = some field →
    fieldPath operand = some (program ++ '.' :: field) ∧ field ∈ values

/-- The constants of a comparison fit into 64 bits. -/
def Fits (comparison : Expression) : Prop :=
  ∀ operand ∈ comparison.operands, ∀ value, literal u operand = some (.integer value) →
    -2 ^ 63 ≤ value ∧ value < 2 ^ 64

end

/-! ## Tasks and their paths -/

namespace PlanTask

variable (task : PlanTask)

/-- The guards of all obligations and the goal. -/
def guards : List Expression :=
  task.controlObligations.filterMap ControlObligation.goalExpression ++ task.terminalGoalExpression.toList

/-- The guards of the obligations on a path, and the goal. -/
def guardsOn (path : CandidatePath) : List Expression :=
  (task.controlObligations.filter fun obligation => obligation.evaluationEdgeId ∈ path.edgeIds).filterMap
      ControlObligation.goalExpression ++ task.terminalGoalExpression.toList

def comparisons : List Expression := task.guards.flatMap Goals.comparisons

end PlanTask

/-! ## Reading a guard -/

section

variable {u : UnicodeData} {values : Values} {expression : Expression} {field : Text} {value : ℤ}

theorem not_and_of_mem {op : Text} (h : op ∈ comparisonOperators) : op ≠ "AND".toList := by
  rintro rfl
  revert h
  decide

theorem IsField.memberName_eq (h : IsField expression field) : memberName expression = some field := by
  cases h <;> rfl

theorem IsField.literal_eq (h : IsField expression field) : literal u expression = none := by
  cases h <;> rfl

theorem IsField.conditions_eq (h : IsField expression field) : conditions u expression = [] := by
  induction h with
  | name => rfl
  | identifier => rfl
  | member _ _ _ _ _ _ _ ih => simp [conditions, conditionsOf, ih]

theorem IsConstant.memberName_eq (h : IsConstant u expression value) : memberName expression = none := by
  have hliteral := h.literal_eq
  unfold literal at hliteral
  unfold memberName
  cases hkind : expression.kind <;> simp_all

theorem IsConstant.conditions_eq (h : IsConstant u expression value) : conditions u expression = [] := by
  obtain ⟨kind, typeName, reads, operands⟩ := expression
  obtain ⟨hliteral, rfl⟩ := h
  cases kind with
  | literal value => simp [conditions, conditionsOf]
  | _ => cases hliteral

/-- The condition that a comparison becomes. -/
structure Reads (u : UnicodeData) (comparison : Expression) (condition : Condition) (rhs : ℤ) : Prop where
  conditions_eq : conditions u comparison = [condition]
  op_mem : condition.op ∈ comparisonOperators
  const_eq : condition.const = .integer rhs
  holds_eq : ∀ values, holds u (observedValue values) comparison =
    relation condition.op (valueOf values condition.field) rhs
  fits_iff : Fits u comparison ↔ -2 ^ 63 ≤ rhs ∧ rhs < 2 ^ 64
  covered_iff : ∀ values, Covered values comparison ↔ (valueForField values condition.field).isSome
  plain : ∀ values program ρ, Observes values program ρ → Plain values program comparison →
    holds u (observedValue values) comparison = holds u (pathValue ρ) comparison

/-- A variable of the program has the value that is observed. -/
theorem observedValue_eq {program : Text} {ρ : Text → ℤ} (hobserves : Observes values program ρ)
    (hname : memberName expression = some field)
    (hplain : fieldPath expression = some (program ++ '.' :: field) ∧ field ∈ values) :
    observedValue values expression = pathValue ρ expression := by
  obtain ⟨hpath, hmem⟩ := hplain
  have hvalue : values[field]? = some values[field] := Std.ExtTreeMap.getElem?_eq_some_getElem hmem
  rw [observedValue, pathValue, hname, hpath, Option.getD_some, Option.getD_some, valueOf, valueForField, hvalue,
    Option.some_or, Option.map_some, Option.getD_some]
  exact hobserves field values[field] hvalue

theorem reads_field {op : Text} {typeName : Option Text} {reads : List Text} {left right : Expression}
    (hop : op ∈ comparisonOperators) (hleft : IsField left field) (hfield : field ≠ [])
    (hright : IsConstant u right value) :
    Reads u ⟨.binary op, typeName, reads, [left, right]⟩ { field, op, const := .integer value } value := by
  have hname := hleft.memberName_eq
  have hliteral := hleft.literal_eq (u := u)
  refine ⟨?_, hop, rfl, ?_, ?_, ?_, ?_⟩
  · rw [conditions, conditionsOf, conditionsOf, conditionsOf, hleft.conditions_eq, hright.conditions_eq]
    simp only [if_pos hop, comparisonCondition, hname, hright.literal_eq]
    simp [hfield, Constant.isNumber]
  · intro values
    rw [holds, if_neg (not_and_of_mem hop)]
    simp [operandValue, observedValue, hliteral, hname, hright.literal_eq]
  · constructor
    · intro h
      exact h right (by simp) value hright.literal_eq
    · intro h operand hoperand n hn
      rcases List.mem_pair.1 hoperand with rfl | rfl
      · rw [hliteral] at hn
        cases hn
      · rw [hright.literal_eq] at hn
        cases hn
        exact h
  · intro values
    constructor
    · intro h
      exact h left (by simp) field hname
    · intro h operand hoperand field' hfield'
      rcases List.mem_pair.1 hoperand with rfl | rfl
      · cases hname.symm.trans hfield'
        exact h
      · rw [hright.memberName_eq] at hfield'
        cases hfield'
  · intro values program ρ hobserves hplain
    rw [holds, holds, if_neg (not_and_of_mem hop), if_neg (not_and_of_mem hop)]
    simp only [operandValue, hliteral, hright.literal_eq,
      observedValue_eq hobserves hname (hplain left (by simp) field hname)]

theorem relation_swapped {op : Text} (h : op ∈ comparisonOperators) (a b : ℤ) :
    relation (swapped op) b a = relation op a b := by
  simp only [comparisonOperators, List.mem_cons, List.not_mem_nil, or_false] at h
  rcases h with rfl | rfl | rfl | rfl | rfl | rfl | rfl | rfl <;> simp [relation, swapped, eq_comm]

theorem swapped_mem {op : Text} (h : op ∈ comparisonOperators) : swapped op ∈ comparisonOperators := by
  simp only [comparisonOperators, List.mem_cons, List.not_mem_nil, or_false] at h
  rcases h with rfl | rfl | rfl | rfl | rfl | rfl | rfl | rfl <;> decide

theorem reads_constant {op : Text} {typeName : Option Text} {reads : List Text} {left right : Expression}
    (hop : op ∈ comparisonOperators) (hleft : IsConstant u left value) (hright : IsField right field)
    (hfield : field ≠ []) :
    Reads u ⟨.binary op, typeName, reads, [left, right]⟩
      { field, op := swapped op, const := .integer value } value := by
  have hname := hright.memberName_eq
  have hliteral := hright.literal_eq (u := u)
  refine ⟨?_, swapped_mem hop, rfl, ?_, ?_, ?_, ?_⟩
  · rw [conditions, conditionsOf, conditionsOf, conditionsOf, hleft.conditions_eq, hright.conditions_eq]
    simp only [if_pos hop, comparisonCondition, hname, hleft.literal_eq, hleft.memberName_eq]
    simp [hfield, Constant.isNumber]
  · intro values
    rw [holds, if_neg (not_and_of_mem hop), relation_swapped hop]
    simp [operandValue, observedValue, hliteral, hname, hleft.literal_eq]
  · constructor
    · intro h
      exact h left (by simp) value hleft.literal_eq
    · intro h operand hoperand n hn
      rcases List.mem_pair.1 hoperand with rfl | rfl
      · rw [hleft.literal_eq] at hn
        cases hn
        exact h
      · rw [hliteral] at hn
        cases hn
  · intro values
    constructor
    · intro h
      exact h right (by simp) field hname
    · intro h operand hoperand field' hfield'
      rcases List.mem_pair.1 hoperand with rfl | rfl
      · rw [hleft.memberName_eq] at hfield'
        cases hfield'
      · cases hname.symm.trans hfield'
        exact h
  · intro values program ρ hobserves hplain
    rw [holds, holds, if_neg (not_and_of_mem hop), if_neg (not_and_of_mem hop)]
    simp only [operandValue, hliteral, hleft.literal_eq,
      observedValue_eq hobserves hname (hplain right (by simp) field hname)]

/-- Each comparison under a guard becomes one condition. -/
theorem IsGuard.reads (h : IsGuard u expression) :
    ∀ comparison ∈ comparisons expression, ∃ condition rhs, Reads u comparison condition rhs := by
  induction h with
  | field hop hleft hfield hright =>
    intro comparison hcomparison
    rw [comparisons, if_neg (not_and_of_mem hop), List.mem_singleton] at hcomparison
    rw [hcomparison]
    exact ⟨_, _, reads_field hop hleft hfield hright⟩
  | constant hop hleft hright hfield =>
    intro comparison hcomparison
    rw [comparisons, if_neg (not_and_of_mem hop), List.mem_singleton] at hcomparison
    rw [hcomparison]
    exact ⟨_, _, reads_constant hop hleft hright hfield⟩
  | paren h ih => exact ih
  | not h ih => exact ih
  | and hleft hright ihleft ihright =>
    intro comparison hcomparison
    rw [comparisons, if_pos rfl] at hcomparison
    rcases List.mem_append.1 hcomparison with hcomparison | hcomparison
    · exact ihleft comparison hcomparison
    · exact ihright comparison hcomparison

/-- The conditions of a guard are those of the comparisons under it. -/
theorem IsGuard.conditions_eq (h : IsGuard u expression) :
    conditions u expression = (comparisons expression).flatMap (conditions u) := by
  induction h with
  | field hop hleft hfield hright =>
    rw [comparisons, if_neg (not_and_of_mem hop), List.flatMap_singleton]
  | constant hop hleft hright hfield =>
    rw [comparisons, if_neg (not_and_of_mem hop), List.flatMap_singleton]
  | paren h ih =>
    simpa [conditions, conditionsOf, comparisons] using ih
  | not h ih =>
    simpa [conditions, conditionsOf, comparisons] using ih
  | and hleft hright ihleft ihright =>
    have hand : "AND".toList ∉ comparisonOperators := by decide
    rw [conditions, conditionsOf, conditionsOf, conditionsOf, comparisons, if_pos rfl, List.flatMap_append,
      ← ihleft, ← ihright, List.append_nil]
    simp only [if_neg hand, List.nil_append]

end

end SemantiST.Goals
