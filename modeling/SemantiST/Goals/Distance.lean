import SemantiST.Lib.Double
import SemantiST.Semantic.Expression

/-!
# Conditions of a goal and the distance to it

`build_goal_tasks` (`fuzzer/pipeline/goal_tasks.py`) reads the comparisons off the guards of a task
and attaches them to each of its paths; `score_task_values` (`fuzzer/engine/src/v3_observer.rs`) sums
the distances of the conditions of a path.
-/

namespace SemantiST.Goals

open Lib Semantic

variable (u : UnicodeData)

/-! ## Constants -/

/-- A number that `float` reads. -/
inductive PyFloat where
  | finite (value : ℚ)
  | infinite (negative : Bool)
  | nan
deriving DecidableEq

/-- `float(text)`. -/
def pyFloat (s : Text) : Option PyFloat :=
  let text := trim isAsciiSpace (u.asciiNumeral s)
  let (negative, digits) :=
    match text with
    | '-' :: rest => (true, rest)
    | '+' :: rest => (false, rest)
    | _ => (false, text)
  if digits.map Char.toLower ∈ ["inf".toList, "infinity".toList] then some (.infinite negative)
  else if digits.map Char.toLower = "nan".toList then some .nan
  else if underscoresInDigits text then
    (decimalValue (digits.filter fun c => c ≠ '_')).map fun q =>
      match nearestDouble q with
      | some d => .finite (if negative then -d else d)
      | none => .infinite negative
  else none

/-- The value of a literal in Python. -/
inductive Constant where
  | boolean (value : Bool)
  | integer (value : ℤ)
  | real (value : PyFloat)
  | text (raw : Text)
deriving DecidableEq

/-- `isinstance(constant, (int, float))`, which a truth value also is. -/
def Constant.isNumber : Constant → Bool
  | .text _ => false
  | _ => true

def Constant.rational : Constant → Option ℚ
  | .boolean value => some (if value then 1 else 0)
  | .integer value => some value
  | .real (.finite value) => some value
  | _ => none

/-- Equal keys: numbers of different types may be equal, and no `nan` equals another. -/
def Constant.same (a b : Constant) : Bool :=
  match a.rational, b.rational with
  | some p, some q => p == q
  | none, none => a == b && a != .real .nan
  | _, _ => false

def textConstant (raw : Text) : Constant :=
  match u.int 0 raw with
  | some n => .integer n
  | none =>
    match pyFloat u raw with
    | some value => .real value
    | none => .text raw

/-- `analysis.literal`. -/
def literal (expression : Expression) : Option Constant :=
  match expression.kind with
  | .literal (.integer raw) | .literal (.real raw) | .literal (.string raw) | .literal (.wideString raw) =>
    some (textConstant u raw)
  | .literal (.boolean value) => some (.boolean value)
  | .literal (.durationNanos value) => some (.integer value)
  | .literal (.dateNanos value) | .literal (.timeOfDayNanos value) | .literal (.dateTimeNanos value) =>
    value.map .integer
  | _ => none

/-- `analysis.member_name`. -/
def memberName (expression : Expression) : Option Text :=
  match expression.kind with
  | .memberAccess member => some (member.getD "None".toList)
  | .variable qualifiedName => some (lastSegment qualifiedName)
  | _ => none

/-! ## Conditions -/

structure Condition where
  field : Text
  op : Text
  const : Constant
deriving DecidableEq

def comparisonOperators : List Text :=
  ["=".toList, "==".toList, "<>".toList, "!=".toList, ">".toList, ">=".toList, "<".toList, "<=".toList]

/-- The operator with its sides changed. -/
def swapped (op : Text) : Text :=
  if op = ">".toList then "<".toList
  else if op = ">=".toList then "<=".toList
  else if op = "<".toList then ">".toList
  else if op = "<=".toList then ">=".toList
  else op

/-- The condition of a comparison of a field with a constant. -/
def comparisonCondition (op : Text) : List Expression → List Condition
  | left :: right :: _ =>
    let (field, constant, op) :=
      if (memberName left).isNone && (literal u left).isSome then
        (memberName right, literal u left, swapped op)
      else (memberName left, literal u right, op)
    match field, constant with
    | some field, some const => if field ≠ [] && const.isNumber then [{ field, op, const }] else []
    | _, _ => []
  | _ => []

mutual

/-- `_conditions`: the comparisons anywhere in an expression. -/
def conditions : Expression → List Condition
  | ⟨kind, _, _, operands⟩ =>
    (match kind with
      | .binary op => if op ∈ comparisonOperators then comparisonCondition u op operands else []
      | _ => []) ++ conditionsOf operands

def conditionsOf : List Expression → List Condition
  | [] => []
  | expression :: rest => conditions expression ++ conditionsOf rest

end

/-! ## Tasks -/

structure ControlObligation where
  evaluationEdgeId : Text
  goalExpression : Option Expression

structure CandidatePath where
  pathId : Text
  edgeIds : List Text

/-- A task of the plan. -/
structure PlanTask where
  polarity : Option Text := none
  controlObligations : List ControlObligation
  terminalGoalExpression : Option Expression := none
  candidatePaths : List CandidatePath

structure GoalPath where
  pathId : Text
  conditions : List Condition

structure GoalTask where
  polarity : Option Text
  candidatePaths : List GoalPath

def taskConditions (task : PlanTask) : List Condition :=
  (task.controlObligations.flatMap fun obligation => obligation.goalExpression.elim [] (conditions u)) ++
    task.terminalGoalExpression.elim [] (conditions u)

def Condition.same (a b : Condition) : Bool := a.field == b.field && a.op == b.op && a.const.same b.const

/-- Each condition where it first occurs. -/
def dedupe (conditions : List Condition) : List Condition :=
  conditions.foldl (fun kept condition =>
    if kept.any condition.same then kept else kept ++ [condition]) []

/-- A path with the conditions of its task. -/
def goalPath (task : PlanTask) (path : CandidatePath) : GoalPath where
  pathId := path.pathId
  conditions := dedupe (taskConditions u task)

/-- `build_goal_tasks`, as far as the conditions of a task go. -/
def buildGoalTask (task : PlanTask) : GoalTask where
  polarity := task.polarity.filter (· ≠ [])
  candidatePaths := task.candidatePaths.map (goalPath u task)

/-! ## Distances -/

/-- A value that a field of at most 64 bits can have. -/
abbrev FieldValue := { value : ℤ // -2 ^ 63 ≤ value ∧ value < 2 ^ 64 }

abbrev Values := Std.ExtTreeMap Text FieldValue compare

def valueForField (values : Values) (field : Text) : Option ℤ :=
  (values[field]?.or ((values.toList.find? fun entry => eqIgnoreAsciiCase entry.1 field).map Prod.snd)).map
    Subtype.val

def isInverse (polarity : Option Text) : Bool :=
  polarity.any fun value =>
    (trim isWhitespace value).map Char.toLower ∈
      ["negative".toList, "negated".toList, "false".toList, "not".toList, "inverse".toList, "inverted".toList]

def effectiveOperator (operator : Text) (polarity : Option Text) : Text :=
  if !isInverse polarity then operator
  else if operator = "=".toList ∨ operator = "==".toList then "!=".toList
  else if operator = "!=".toList ∨ operator = "<>".toList then "==".toList
  else if operator = ">".toList then "<=".toList
  else if operator = ">=".toList then "<".toList
  else if operator = "<".toList then ">=".toList
  else if operator = "<=".toList then ">".toList
  else operator

/-- `json_i128` of a constant as it is written in the task file. -/
def jsonI128 : Constant → Option ℤ
  | .integer value => if -2 ^ 63 ≤ value ∧ value < 2 ^ 64 then some value else none
  | _ => none

/-- What a value lacks of meeting a comparison. -/
def shortfall (op : Text) (value rhs : ℤ) : Option ℤ :=
  if op = "=".toList ∨ op = "==".toList then some |value - rhs|
  else if op = "!=".toList ∨ op = "<>".toList then some (if value = rhs then 1 else 0)
  else if op = ">".toList then some (max (rhs - value + 1) 0)
  else if op = ">=".toList then some (max (rhs - value) 0)
  else if op = "<".toList then some (max (value - rhs + 1) 0)
  else if op = "<=".toList then some (max (value - rhs) 0)
  else none

def conditionDistance (condition : Condition) (values : Values) (polarity : Option Text) : Option ℚ := do
  let value ← valueForField values condition.field
  let rhs ← jsonI128 condition.const
  let distance ← shortfall (effectiveOperator condition.op polarity) value rhs
  some (f64 (f64 distance / f64 (1 + f64 |rhs|)))

/-- The sum over the conditions of a path, where each is known. -/
def conditionSum (values : Values) (polarity : Option Text) (conditions : List Condition) : Option ℚ :=
  conditions.foldlM (fun total condition =>
    (conditionDistance condition values polarity).map fun distance => f64 (total + distance)) 0

/-- The part of `score_task_values` over the paths: the least sum of a path that has conditions. -/
def pathDistance (task : GoalTask) (values : Values) : WithTop ℚ :=
  task.candidatePaths.foldl (fun best path =>
    if path.conditions.isEmpty then best
    else
      match conditionSum values task.polarity path.conditions with
      | some total => min best total
      | none => best) ⊤

end SemantiST.Goals
