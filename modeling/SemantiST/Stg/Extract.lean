import SemantiST.Stg.Graph

/-!
# The graph builder

`PouBuilder` (`compiler/stg/src/extract.rs`): a body becomes a graph, statement by statement.  The
builder holds the places where control can be, each with the operations that are still to be put on
an edge; a control statement puts them on edges to its nodes, an EXIT, CONTINUE or RETURN takes them
away.
-/

namespace SemantiST.Stg

open Lib Semantic

/-! ## Flow points -/

structure FlowPoint where
  node : NodeId
  summary : List TransferOperation := []

structure LoopContext where
  continueTarget : NodeId
  exitTarget : NodeId

def FlowPoint.applyOperation (operation : TransferOperation) (point : FlowPoint) : FlowPoint :=
  { point with summary := point.summary ++ [operation] }

def connectPoints (points : List FlowPoint) (target : NodeId) : BuildM Unit :=
  match points with
  | [] => return ()
  | point :: points => do
    addControlEdge point.node target point.summary false
    connectPoints points target

/-! ## Hazards -/

def insertHazard (points : List FlowPoint) (hazard : HazardCandidate) : BuildM (List FlowPoint) := do
  let node ← addNode { kind := .hazard, source := some hazard.source, hazard := some hazard.key } 0 none
  connectPoints points node
  if hazard.kind = .externalOutput then addTarget node .externalOutput none
  else
    addTarget node .hazardReach none
    addTarget node .hazardViolation none
  return [⟨node, []⟩]

def insertHazards (points : List FlowPoint) : List HazardCandidate → BuildM (List FlowPoint)
  | [] => return points
  | hazard :: hazards => do
    let points ← insertHazard points hazard
    insertHazards points hazards

def conditionHazards (a : Annotations) (points : List FlowPoint) (condition : AstExpr) :
    BuildM (List FlowPoint) := do
  let _ ← expression condition
  let hazards ← hazardsReachable a condition
  insertHazards points hazards

/-- The hazards of several expressions, each after the one before. -/
def hazardsOfRoots (a : Annotations) : List AstExpr → BuildM (List HazardCandidate)
  | [] => return []
  | root :: roots => do
    let hazards ← hazardsReachable a root
    let rest ← hazardsOfRoots a roots
    return hazards ++ rest

/-- A candidate that the search for hazards does not find by itself. -/
def reportHazard (candidate : HazardCandidate) : BuildM (List HazardCandidate) := do
  let s ← get
  if s.hazardByExpression.contains candidate.key then return []
  set { s with hazardByExpression := candidate.key :: s.hazardByExpression }
  return [candidate]

/-- The operation of a statement that is no control statement, and its hazards. -/
def summarizeStatement (a : Annotations) (statement : Statement) :
    BuildM (Option TransferOperation × List HazardCandidate) :=
  match statement with
  | .assignment span left right => do
    let target ← expression left
    let value ← expression right
    let conversion := a.conversionFor left right
    let hazards ← hazardsOfRoots a [left, right]
    let output ← if a.isExternalOutputTarget left then
      reportHazard ⟨.externalOutput, target, span⟩ else pure []
    let narrowing ← if conversion.any TypeConversion.potentiallyNarrowing then
      reportHazard ⟨.dangerousConversion, value, span⟩ else pure []
    return (some (.assign left (expressionVariableName left) value conversion),
      hazards ++ output ++ narrowing)
  | .call call => do
    let _ ← expression call
    let hazards ← hazardsOfRoots a [call]
    return (some (.call call), hazards)
  | .allocation _ name typeName => return (some (.allocation name typeName), [])
  | .empty _ => return (none, [])
  | .preserved _ astKind => return (some (.opaqueStep astKind), [])
  | _ => return (none, [])

def buildSimple (a : Annotations) (statement : Statement) (points : List FlowPoint) :
    BuildM (List FlowPoint) := do
  let (operation, hazards) ← summarizeStatement a statement
  let points ← insertHazards points hazards
  match operation with
  | none => return points
  | some operation => return points.map (FlowPoint.applyOperation operation)

/-! ## Nodes of control statements -/

def addPredicate (condition : AstExpr) (kind : PredicateKind) (ordinal : ℕ) : BuildM NodeId := do
  let _ ← expression condition
  addNode { kind := .predicate kind, source := some condition.span } ordinal none

/-- The kind of the target of an outcome. -/
def outcomeTarget : OutcomeRole → TargetKind
  | .caseLabel | .caseDefault => .caseOutcome
  | .loopEnter | .loopContinue | .loopExit | .loopBack => .loopOutcome
  | .explicitExit | .explicitContinue | .return => .controlTransfer
  | .cycleEntry | .cycleExit => .cycle
  | .true | .false | .elseEntry => .branchOutcome

def addOutcome (predicate : NodeId) (span : SourceSpan) (role : OutcomeRole) (value : OutcomeValue)
    (ordinal : ℕ) : BuildM NodeId := do
  let outcome : Outcome := { predicate := some predicate, role, ordinal, value }
  let node ← addNode { kind := .outcome, source := some span, outcome := some outcome } ordinal
    (some predicate)
  addTarget node (outcomeTarget role) (some role)
  return node

def addStructuralLoopEnter (span : SourceSpan) (loopId : NodeId) : BuildM NodeId := do
  let node ← addNode { kind := .outcome, source := some span, outcome := some { role := .loopEnter } } 0
    (some loopId)
  addTarget node .loopOutcome (some .loopEnter)
  return node

def addStructuralElse (span : SourceSpan) (predicate : NodeId) : BuildM NodeId := do
  let outcome : Outcome := { role := .elseEntry, ordinal := 2 }
  let node ← addNode { kind := .outcome, source := some span, outcome := some outcome } 2
    (some predicate)
  addTarget node .branchOutcome (some .elseEntry)
  return node

/-- The node from which a loop starts again. -/
def addLoopBack (span : SourceSpan) (loopId : NodeId) : BuildM NodeId := do
  let node ← addNode { kind := .loopLatch, source := some span, outcome := some { role := .loopBack } } 0
    (some loopId)
  addTarget node .loopOutcome (some .loopBack)
  return node

/-- The node of an EXIT, CONTINUE or RETURN, with the edge that leaves it. -/
def addLoopControl (points : List FlowPoint) (span : SourceSpan) (role : OutcomeRole)
    (target : NodeId) (isBackEdge : Bool) : BuildM Unit := do
  let node ← addNode { kind := .loopControl, source := some span, outcome := some { role } } 0 none
  connectPoints points node
  addTarget node .controlTransfer (some role)
  addControlEdge node target [] isBackEdge

/-- The guards of a condition and of its negation. -/
def addBranches (predicate whenTrue whenFalse : NodeId) (guard : TypedExpression)
    (location : SourceSpan) : BuildM Unit := do
  let negated ← syntheticNot guard location
  addEvaluationEdge predicate whenTrue guard
  addEvaluationEdge predicate whenFalse negated

/-! ## Statements -/

/-- The labels of a branch, with the body built once for each. -/
def buildLabels (predicate : NodeId) (selector : TypedExpression)
    (buildBody : NodeId → BuildM (List FlowPoint)) :
    ℕ → List AstExpr → BuildM (List FlowPoint × List TypedExpression)
  | _, [] => return ([], [])
  | ordinal, label :: labels => do
    let labelId ← expression label
    let guard ← caseGuardExpression selector label
    let outcome ← addOutcome predicate label.span .caseLabel (.expression labelId) ordinal
    addEvaluationEdge predicate outcome guard
    let endpoints ← buildBody outcome
    let (endpoints', guards) ← buildLabels predicate selector buildBody (ordinal + 1) labels
    return (endpoints ++ endpoints', guard :: guards)

section

variable (a : Annotations) (returnTarget : NodeId)

mutual

def buildStatement (loop : Option LoopContext) :
    Statement → List FlowPoint → BuildM (List FlowPoint)
  | .ifs _ blocks elseBlock, points => do
    let (completed, falsePoints) ← buildIfBlocks loop 0 (!elseBlock.isEmpty) blocks points
    let elseEndpoints ← buildSequence loop elseBlock falsePoints
    return completed ++ elseEndpoints
  | .cases _ selector blocks elseBlock, points => do
    let points ← conditionHazards a points selector
    let predicate ← addPredicate selector .case 0
    connectPoints points predicate
    let selectorId ← expression selector
    let (endpoints, guards) ← buildCaseBlocks loop predicate selectorId 0 blocks
    let default ← addOutcome predicate selector.span .caseDefault .default (blocks.length * 1024)
    let guard ← syntheticNor guards selector.span
    addEvaluationEdge predicate default guard
    let rest ← buildSequence loop elseBlock [⟨default, []⟩]
    return endpoints ++ rest
  | .whileLoop span condition body, points => do
    let points ← conditionHazards a points condition
    let predicate ← addPredicate condition .whileLoop 0
    connectPoints points predicate
    let enter ← addOutcome predicate condition.span .loopEnter (.boolean true) 0
    let exit ← addOutcome predicate condition.span .loopExit (.boolean false) 1
    let guard ← expression condition
    addBranches predicate enter exit guard condition.span
    let body ← buildSequence (some ⟨predicate, exit⟩) body [⟨enter, []⟩]
    let latch ← addLoopBack span predicate
    connectPoints body latch
    addControlEdge latch predicate [] true
    return [⟨exit, []⟩]
  | .repeatLoop span condition body, points => do
    let _ ← expression condition
    let hazards ← hazardsReachable a condition
    let predicate ← addPredicate condition .repeatLoop 0
    let enter ← addStructuralLoopEnter span predicate
    connectPoints points enter
    let exit ← addOutcome predicate condition.span .loopExit (.boolean true) 0
    let again ← addOutcome predicate condition.span .loopContinue (.boolean false) 1
    let guard ← expression condition
    addBranches predicate exit again guard condition.span
    let latch ← addLoopBack span predicate
    addControlEdge again latch [] false
    addControlEdge latch enter [] true
    let body ← buildSequence (some ⟨predicate, exit⟩) body [⟨enter, []⟩]
    let body ← insertHazards body hazards
    connectPoints body predicate
    return [⟨exit, []⟩]
  | .forLoop span counter start stop byStep body, points => do
    let counterId ← expression counter
    let startId ← expression start
    let init : TransferOperation := .assign counter (expressionVariableName counter) startId
      (a.conversionFor counter start)
    let points ← conditionHazards a (points.map (FlowPoint.applyOperation init)) stop
    let predicate ← addPredicate stop .forLoop 0
    connectPoints points predicate
    let enter ← addOutcome predicate stop.span .loopEnter (.boolean true) 0
    let exit ← addOutcome predicate stop.span .loopExit (.boolean false) 1
    let condition ← forConditionExpression counter stop byStep
    addBranches predicate enter exit condition stop.span
    let latch ← addLoopBack span predicate
    let body ← buildSequence (some ⟨latch, exit⟩) body [⟨enter, []⟩]
    connectPoints body latch
    let step ← match byStep with
      | some step => expression step
      | none => syntheticInteger 1 stop.span
    let increment ← syntheticBinary "+".toList counterId step counter.typeName counter.span
    addControlEdge latch predicate
      [.assign counter (expressionVariableName counter) increment none] true
    return [⟨exit, []⟩]
  | .exitLoop span, points => do
    match loop with
    | none =>
      addDiagnostic "STG-E011".toList
      return []
    | some context =>
      addLoopControl points span .explicitExit context.exitTarget false
      return []
  | .continueLoop span, points => do
    match loop with
    | none =>
      addDiagnostic "STG-E012".toList
      return []
    | some context =>
      addLoopControl points span .explicitContinue context.continueTarget true
      return []
  | .returnPou span, points => do
    addLoopControl (points.map (FlowPoint.applyOperation .return)) span .return returnTarget false
    return []
  | .assignment span left right, points => buildSimple a (.assignment span left right) points
  | .call call, points => buildSimple a (.call call) points
  | .allocation span name typeName, points => buildSimple a (.allocation span name typeName) points
  | .empty span, points => buildSimple a (.empty span) points
  | .preserved span astKind, points => buildSimple a (.preserved span astKind) points

def buildSequence (loop : Option LoopContext) :
    List Statement → List FlowPoint → BuildM (List FlowPoint)
  | [], points => return points
  | statement :: rest, points => do
    let points ← buildStatement loop statement points
    buildSequence loop rest points

/-- The blocks of an IF: the end points of their bodies, and where control is when no condition
holds. -/
def buildIfBlocks (loop : Option LoopContext) (index : ℕ) (hasElse : Bool) :
    List ConditionalBlock → List FlowPoint → BuildM (List FlowPoint × List FlowPoint)
  | [], points => return ([], points)
  | ⟨condition, body⟩ :: rest, points => do
    let points ← conditionHazards a points condition
    let predicate ← addPredicate condition (if index = 0 then .ifs else .elsif) index
    connectPoints points predicate
    let whenTrue ← addOutcome predicate condition.span .true (.boolean true) 0
    let whenFalse ← addOutcome predicate condition.span .false (.boolean false) 1
    let guard ← expression condition
    addBranches predicate whenTrue whenFalse guard condition.span
    let endpoints ← buildSequence loop body [⟨whenTrue, []⟩]
    let falsePoint ←
      if rest.isEmpty && hasElse then do
        let elseEntry ← addStructuralElse condition.span predicate
        addControlEdge whenFalse elseEntry [] false
        pure elseEntry
      else pure whenFalse
    let (completed, falsePoints) ← buildIfBlocks loop (index + 1) hasElse rest [⟨falsePoint, []⟩]
    return (endpoints ++ completed, falsePoints)

/-- The branches of a CASE: a copy of the body for each label.  The end points and the guards. -/
def buildCaseBlocks (loop : Option LoopContext) (predicate : NodeId) (selector : TypedExpression)
    (blockIndex : ℕ) : List ConditionalBlock → BuildM (List FlowPoint × List TypedExpression)
  | [] => return ([], [])
  | ⟨condition, body⟩ :: rest => do
    let (endpoints, guards) ← buildLabels predicate selector
      (fun outcome => buildSequence loop body [⟨outcome, []⟩]) (blockIndex * 1024)
      (caseLabels condition)
    let (endpoints', guards') ← buildCaseBlocks loop predicate selector (blockIndex + 1) rest
    return (endpoints ++ endpoints', guards ++ guards')

end

end
/-! ## Units -/

def addCycleNode (kind : NodeKind) (role : OutcomeRole) (span : SourceSpan) : BuildM NodeId :=
  addNode { kind, source := some span, outcome := some { role } } 0 none

/-- The nodes between which the body stands. -/
def buildFrame (pou : Pou) : BuildM (NodeId × NodeId) := do
  registerExpressions pou.initialValues
  let entry ← addNode { kind := .entry } 0 none
  let exit ← addNode { kind := .exit } 0 none
  if pou.stateful then
    let cycleEntry ← addCycleNode .cycleEntry .cycleEntry pou.span
    let cycleExit ← addCycleNode .cycleExit .cycleExit pou.span
    addControlEdge entry cycleEntry [] false
    addTarget cycleEntry .cycle (some .cycleEntry)
    addTarget cycleExit .cycle (some .cycleExit)
    addControlEdge cycleExit exit [] false
    addTemporalEdge cycleExit cycleEntry
    return (cycleEntry, cycleExit)
  else return (entry, exit)

def build (a : Annotations) (pou : Pou) : BuildM Unit := do
  let (bodyStart, bodyEnd) ← buildFrame pou
  let endpoints ← buildSequence a bodyEnd none pou.statements [⟨bodyStart, []⟩]
  connectPoints endpoints bodyEnd

/-- The graph of a unit. -/
def graphOf (a : Annotations) (pou : Pou) : Builder := ((build a pou).run {}).2

def entryId : NodeId := ⟨.entry, none, 0⟩
def exitId : NodeId := ⟨.exit, none, 0⟩

end SemantiST.Stg
