import Mathlib.Logic.Function.Basic
import SemantiST.Stg.Ast

/-!
# The semantic graph

The data of a graph (`compiler/stg/src/model.rs`), the identifiers of its parts
(`compiler/stg/src/stable_id.rs`) and the operations that add a node, an edge, a target or an
expression (`compiler/stg/src/extract.rs`).  An identifier is the tuple that the source hashes; the
file and the unit, which are the same everywhere in a unit, are left out, and so are the texts that
only reports show.
-/

namespace SemantiST.Stg

open Lib Semantic

/-! ## Expressions -/

structure ExpressionId where
  span : SourceSpan
  kind : Text
  ordinal : ℕ
deriving DecidableEq

/-- An expression of the graph: one of the unit, or one that the builder makes. -/
inductive TypedExpression where
  | source (expression : AstExpr)
  | synthetic (id : ExpressionId) (kind : ExpressionKind) (typeName : Text)
      (operands : List TypedExpression)

def TypedExpression.kind : TypedExpression → ExpressionKind
  | .source expression => expression.kind.expressionKind
  | .synthetic _ kind _ _ => kind

def TypedExpression.typeName : TypedExpression → Text
  | .source expression => expression.typeName
  | .synthetic _ _ typeName _ => typeName

def TypedExpression.span : TypedExpression → SourceSpan
  | .source expression => expression.span
  | .synthetic id _ _ _ => id.span

def TypedExpression.operands : TypedExpression → List TypedExpression
  | .source expression => expression.operands.map .source
  | .synthetic _ _ _ operands => operands

/-- What tells an expression from the others: the tree node it stands for, or its identifier. -/
def TypedExpression.key : TypedExpression → ℕ ⊕ ExpressionId
  | .source expression => .inl expression.id
  | .synthetic id _ _ _ => .inr id

structure ExpressionEntry where
  id : ExpressionId
  expression : TypedExpression

/-! ## Nodes, edges and targets -/

inductive PredicateKind where
  | ifs | elsif | case | whileLoop | repeatLoop | forLoop
deriving DecidableEq

inductive NodeKind where
  | entry | exit | cycleEntry | cycleExit
  | predicate (kind : PredicateKind)
  | outcome | loopLatch | loopControl | hazard
deriving DecidableEq

structure NodeId where
  kind : NodeKind
  span : Option SourceSpan
  occurrence : ℕ
deriving DecidableEq

inductive OutcomeRole where
  | true | false | elseEntry | caseLabel | caseDefault | loopEnter | loopContinue | loopExit | loopBack
  | explicitExit | explicitContinue | return | cycleEntry | cycleExit
deriving DecidableEq

inductive OutcomeValue where
  | boolean (value : Bool)
  | expression (expression : TypedExpression)
  | default
  | structural

structure Outcome where
  predicate : Option NodeId := none
  role : OutcomeRole
  ordinal : ℕ := 0
  value : OutcomeValue := .structural

inductive HazardKind where
  | division | modulo | arithmeticBoundary | arrayAccess | pointerAccess | dangerousConversion
  | externalOutput
deriving DecidableEq

abbrev HazardKey := HazardKind × (ℕ ⊕ ExpressionId)

structure HazardCandidate where
  kind : HazardKind
  expression : TypedExpression
  source : SourceSpan

def HazardCandidate.key (candidate : HazardCandidate) : HazardKey :=
  (candidate.kind, candidate.expression.key)

structure Node where
  id : NodeId
  outcome : Option Outcome
  hazard : Option HazardKey

structure TypeConversion where
  source : Text
  target : Text
  potentiallyNarrowing : Bool
deriving DecidableEq

inductive TransferOperation where
  | assign (target : AstExpr) (targetSymbol : Option Text) (value : TypedExpression)
      (conversion : Option TypeConversion)
  | call (call : AstExpr)
  | return
  | allocation (name typeName : Text)
  | opaqueStep (astKind : Text)

inductive EdgeKind where
  | evaluation | controlTransfer | temporal
deriving DecidableEq

structure EdgeId where
  kind : EdgeKind
  source : NodeId
  target : NodeId
  ordinal : ℕ
deriving DecidableEq

structure Edge where
  id : EdgeId
  guard : Option TypedExpression := none
  transfer : Option (List TransferOperation) := none
  isBackEdge : Bool := false

inductive TargetKind where
  | branchOutcome | caseOutcome | loopOutcome | controlTransfer | cycle | hazardReach
  | hazardViolation | externalOutput
deriving DecidableEq

/-- The span in an identifier of a target is that of its node. -/
structure TargetId where
  kind : TargetKind
  node : NodeId
deriving DecidableEq

structure Target where
  id : TargetId
  role : Option OutcomeRole

/-! ## The builder -/

/-- What the compiler's index and annotations say, beside what stands in the tree. -/
structure Annotations where
  conversionFor : AstExpr → AstExpr → Option TypeConversion
  /-- The assignment to an expression changes an output of the unit. -/
  isExternalOutputTarget : AstExpr → Bool
  isFloatType : Text → Bool
  isIntegerType : Text → Bool

/-- What tells nodes apart that are made at one place: their kind, the place, and the predicate they
belong to. -/
abbrev NodeKey := NodeKind × Option SourceSpan × Option NodeId

structure Builder where
  nodes : List Node := []
  nodeOrdinals : NodeKey → Option ℕ := fun _ => none
  edges : List Edge := []
  edgeOrdinal : ℕ := 0
  targets : List Target := []
  expressions : List ExpressionEntry := []
  expressionByAst : List ℕ := []
  expressionKeyCounts : SourceSpan × Text × Text → ℕ := fun _ => 0
  hazardByExpression : List HazardKey := []
  diagnostics : List Text := []

abbrev BuildM := StateM Builder

structure NodeSpec where
  kind : NodeKind
  source : Option SourceSpan := none
  outcome : Option Outcome := none
  hazard : Option HazardKey := none

def addNode (spec : NodeSpec) (ordinal : ℕ) (discriminator : Option NodeId) : BuildM NodeId := do
  let s ← get
  let key : NodeKey := (spec.kind, spec.source, discriminator)
  let occurrence := (s.nodeOrdinals key).getD ordinal
  let id : NodeId := ⟨spec.kind, spec.source, occurrence⟩
  set { s with
    nodeOrdinals := Function.update s.nodeOrdinals key (some (occurrence + 1))
    nodes := s.nodes ++ [(⟨id, spec.outcome, spec.hazard⟩ : Node)] }
  return id

def addEdge (source target : NodeId) (kind : EdgeKind) (guard : Option TypedExpression)
    (transfer : Option (List TransferOperation)) (isBackEdge : Bool) : BuildM Unit :=
  modify fun s => { s with
    edges := s.edges ++
      [({ id := ⟨kind, source, target, s.edgeOrdinal⟩, guard, transfer, isBackEdge } : Edge)]
    edgeOrdinal := s.edgeOrdinal + 1 }

def addEvaluationEdge (source target : NodeId) (guard : TypedExpression) : BuildM Unit :=
  addEdge source target .evaluation (some guard) none false

def addControlEdge (source target : NodeId) (summary : List TransferOperation) (isBackEdge : Bool) :
    BuildM Unit :=
  addEdge source target .controlTransfer none (some summary) isBackEdge

def addTemporalEdge (source target : NodeId) : BuildM Unit :=
  addEdge source target .temporal none none true

def addTarget (node : NodeId) (kind : TargetKind) (role : Option OutcomeRole) : BuildM Unit :=
  modify fun s => { s with targets := s.targets ++ [(⟨⟨kind, node⟩, role⟩ : Target)] }

def addDiagnostic (code : Text) : BuildM Unit :=
  modify fun s => { s with diagnostics := s.diagnostics ++ [code] }

/-! ## Expressions -/

/-- The entry of an expression whose operands have theirs. -/
def pushExpression (e : AstExpr) : BuildM Unit :=
  modify fun s =>
    let kind := expressionKindName e.kind.expressionKind
    let key := (e.span, kind, e.typeName)
    let ordinal := s.expressionKeyCounts key
    { s with
      expressionKeyCounts := Function.update s.expressionKeyCounts key (ordinal + 1)
      expressions := s.expressions ++ [(⟨⟨e.span, kind, ordinal⟩, .source e⟩ : ExpressionEntry)]
      expressionByAst := s.expressionByAst ++ [e.id] }

mutual

/-- Sees to it that an expression and its operands have entries. -/
def registerExpression : AstExpr → BuildM Unit
  | ⟨id, span, kind, typeName, operands⟩ => do
    if (← get).expressionByAst.contains id then return ()
    registerExpressions operands
    pushExpression ⟨id, span, kind, typeName, operands⟩

def registerExpressions : List AstExpr → BuildM Unit
  | [] => return ()
  | e :: es => do
    registerExpression e
    registerExpressions es

end

def expression (e : AstExpr) : BuildM TypedExpression := do
  registerExpression e
  return .source e

def syntheticExpression (kind : ExpressionKind) (operands : List TypedExpression) (typeName : Text)
    (location : SourceSpan) : BuildM TypedExpression := do
  let s ← get
  let name := expressionKindName kind
  let ordinal := s.expressions.countP fun entry =>
    expressionKindName entry.expression.kind == name
  let id : ExpressionId := ⟨location, name, ordinal⟩
  let result : TypedExpression := .synthetic id kind typeName operands
  set { s with expressions := s.expressions ++ [(⟨id, result⟩ : ExpressionEntry)] }
  return result

def syntheticBinary (operator : Text) (left right : TypedExpression) (typeName : Text)
    (location : SourceSpan) : BuildM TypedExpression :=
  syntheticExpression (.binary operator) [left, right] typeName location

def boolType : Text := "BOOL".toList

def syntheticNot (operand : TypedExpression) (location : SourceSpan) : BuildM TypedExpression :=
  syntheticExpression (.unary "NOT".toList) [operand] boolType location

def syntheticInteger (value : ℕ) (location : SourceSpan) : BuildM TypedExpression :=
  syntheticExpression (.literal (.integer (decimal value))) [] "DINT".toList location

def syntheticBoolean (value : Bool) (location : SourceSpan) : BuildM TypedExpression :=
  syntheticExpression (.literal (.boolean value)) [] boolType location

/-- The condition under which the body of a FOR runs again. -/
def forConditionExpression (counter stop : AstExpr) (byStep : Option AstExpr) :
    BuildM TypedExpression := do
  let counter ← expression counter
  let stopId ← expression stop
  match byStep with
  | some step =>
    let step ← expression step
    let zero ← syntheticInteger 0 stop.span
    let positive ← syntheticBinary ">".toList step zero boolType stop.span
    let le ← syntheticBinary "<=".toList counter stopId boolType stop.span
    let ge ← syntheticBinary ">=".toList counter stopId boolType stop.span
    let positivePath ← syntheticBinary "AND".toList positive le boolType stop.span
    let notPositive ← syntheticNot positive stop.span
    let negativePath ← syntheticBinary "AND".toList notPositive ge boolType stop.span
    syntheticBinary "OR".toList positivePath negativePath boolType stop.span
  | none => syntheticBinary "<=".toList counter stopId boolType stop.span

/-- The condition under which a CASE takes a label. -/
def caseGuardExpression (selector : TypedExpression) (label : AstExpr) : BuildM TypedExpression :=
  match label.kind, label.operands with
  | .range, [low, high] => do
    let ge ← syntheticBinary ">=".toList selector (.source low) boolType label.span
    let le ← syntheticBinary "<=".toList selector (.source high) boolType label.span
    syntheticBinary "AND".toList ge le boolType label.span
  | _, _ => syntheticBinary "=".toList selector (.source label) boolType label.span

/-- The disjunction of the guards after the first. -/
def syntheticOr (combined : TypedExpression) (location : SourceSpan) :
    List TypedExpression → BuildM TypedExpression
  | [] => return combined
  | guard :: guards => do
    let combined ← syntheticBinary "OR".toList combined guard boolType location
    syntheticOr combined location guards

def syntheticNor (guards : List TypedExpression) (location : SourceSpan) : BuildM TypedExpression :=
  match guards with
  | [] => syntheticBoolean true location
  | guard :: guards => do
    let combined ← syntheticOr guard location guards
    syntheticNot combined location

/-! ## Hazards -/

/-- The text has a part. -/
def containsText (needle haystack : Text) : Bool := haystack.tails.any fun rest => needle.isPrefixOf rest

/-- The hazard of an expression. -/
def hazardOf (a : Annotations) (e : TypedExpression) : Option HazardKind :=
  match e.kind with
  | .binary operator =>
    if operator = "/".toList then some .division
    else if eqIgnoreAsciiCase operator "MOD".toList then some .modulo
    else if operator ∈ ["+".toList, "-".toList, "*".toList, "**".toList] then some .arithmeticBoundary
    else none
  | .arrayIndex => some .arrayAccess
  | .pointerDeref => some .pointerAccess
  | .cast _ => some .dangerousConversion
  | .call (some callee) =>
    let sourceFloat := e.operands.head?.any fun operand =>
      toAsciiUppercase operand.typeName ∈ ["REAL".toList, "LREAL".toList] ||
        a.isFloatType operand.typeName
    let targetInteger := toAsciiUppercase e.typeName ∈ ["SINT".toList, "INT".toList, "DINT".toList,
      "LINT".toList, "USINT".toList, "UINT".toList, "UDINT".toList, "ULINT".toList, "BYTE".toList,
      "WORD".toList, "DWORD".toList, "LWORD".toList] || a.isIntegerType e.typeName
    if containsText "_TO_".toList callee && sourceFloat && targetInteger then
      some .dangerousConversion
    else none
  | _ => none

/-- The state of the search for hazards: the expressions visited, the hazards known, and those found
first by this search. -/
structure HazardScan where
  seen : List (ℕ ⊕ ExpressionId) := []
  known : List HazardKey
  found : List HazardCandidate := []

def HazardScan.candidate (scan : HazardScan) (candidate : HazardCandidate) : HazardScan :=
  if scan.known.contains candidate.key then scan
  else { scan with known := candidate.key :: scan.known, found := scan.found ++ [candidate] }

/-- One expression, without its operands. -/
def HazardScan.enter (a : Annotations) (e : TypedExpression) (scan : HazardScan) : HazardScan :=
  let scan := { scan with seen := e.key :: scan.seen }
  match hazardOf a e with
  | none => scan
  | some kind => scan.candidate ⟨kind, e, e.span⟩

mutual

/-- An expression of the unit and what is below it, the last operand first, as the source's stack
hands them out. -/
def visitSource (a : Annotations) : AstExpr → HazardScan → HazardScan
  | ⟨id, span, kind, typeName, operands⟩, scan =>
    if scan.seen.contains (.inl id) then scan
    else visitSources a operands (scan.enter a (.source ⟨id, span, kind, typeName, operands⟩))

def visitSources (a : Annotations) : List AstExpr → HazardScan → HazardScan
  | [], scan => scan
  | e :: es, scan => visitSource a e (visitSources a es scan)

end

mutual

def visit (a : Annotations) : TypedExpression → HazardScan → HazardScan
  | .source e, scan => visitSource a e scan
  | .synthetic id kind typeName operands, scan =>
    if scan.seen.contains (.inr id) then scan
    else visitAll a operands (scan.enter a (.synthetic id kind typeName operands))

def visitAll (a : Annotations) : List TypedExpression → HazardScan → HazardScan
  | [], scan => scan
  | e :: es, scan => visit a e (visitAll a es scan)

end

/-- One span lies in another. -/
def SourceSpan.within (inner outer : SourceSpan) : Bool :=
  outer.startOffset ≤ inner.startOffset && inner.endOffset ≤ outer.endOffset

/-- The hazards of an expression and of what stands at its place that no earlier search found. -/
def hazardsReachable (a : Annotations) (root : AstExpr) : BuildM (List HazardCandidate) := do
  let s ← get
  let pending := (s.expressions.map ExpressionEntry.expression).filter fun e => e.span.within root.span
  let scan := visitAll a (.source root :: pending) { known := s.hazardByExpression }
  set { s with hazardByExpression := scan.known }
  return scan.found

end SemantiST.Stg
