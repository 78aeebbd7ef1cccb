import SemantiST.Stg.Extract

/-!
# Transfer summaries

What an edge says of its operations (`apply_operation` of `compiler/stg/src/extract.rs`): the names they
read, what they write, and how well this is known.  The versions of the symbols are left out.
-/

namespace SemantiST.Stg

open Lib Semantic

/-! ## How well an expression is known -/

inductive ModelingStatus where
  | exact | conservative | opaqueModel
deriving DecidableEq

def maxModeling : ModelingStatus → ModelingStatus → ModelingStatus
  | .opaqueModel, _ | _, .opaqueModel => .opaqueModel
  | .conservative, _ | _, .conservative => .conservative
  | .exact, .exact => .exact

/-- What the index says of names. -/
structure NameFacts where
  /-- The compiler resolved the identifier. -/
  qualified : AstExpr → Bool
  implemented : Text → Bool
  /-- The parameters of a callable that it gets by reference or gives back. -/
  outputs : Text → List Text

namespace NameFacts

variable (f : NameFacts)

def callModeling : Option Text → ModelingStatus
  | none => .opaqueModel
  | some callee => if f.implemented callee then .conservative else .opaqueModel

mutual

def modeling : AstExpr → ModelingStatus
  | ⟨id, span, kind, typeName, operands⟩ =>
    match kind with
    | .literal _ => .exact
    | .identifier _ => if f.qualified ⟨id, span, kind, typeName, operands⟩ then .exact else .conservative
    | .call callee _ => f.callModeling callee
    | .other _ => .opaqueModel
    | _ => modelingOfAll operands

def modelingOfAll : List AstExpr → ModelingStatus
  | [] => .exact
  | e :: es => maxModeling (modeling e) (modelingOfAll es)

end

mutual

def typedModeling : TypedExpression → ModelingStatus
  | .source e => f.modeling e
  | .synthetic _ _ _ operands => typedModelingOfAll operands

def typedModelingOfAll : List TypedExpression → ModelingStatus
  | [] => .exact
  | e :: es => maxModeling (typedModeling e) (typedModelingOfAll es)

end

end NameFacts

mutual

def TypedExpression.reads : TypedExpression → List Text
  | .source e => e.reads
  | .synthetic _ _ _ operands => typedReadsOfAll operands

def typedReadsOfAll : List TypedExpression → List Text
  | [] => []
  | e :: es => e.reads ++ typedReadsOfAll es

end

/-! ## Summaries -/

/-- A symbol that is written; an assignment whose target has no name writes the target. -/
inductive WrittenSymbol where
  | name (name : Text)
  | target (id : ℕ)
deriving DecidableEq

structure TransferSummary where
  modeling : ModelingStatus := .exact
  reads : List Text := []
  writes : List WrittenSymbol := []

def TransferSummary.applyOperation (f : NameFacts) (summary : TransferSummary) :
    TransferOperation → TransferSummary
  | .assign target targetSymbol value _ => {
      modeling := maxModeling summary.modeling (f.typedModeling value)
      reads := summary.reads ++ value.reads
      writes := summary.writes ++ [targetSymbol.elim (.target target.id) .name] }
  | .call call =>
    let callee := match call.kind with
      | .call callee _ => callee
      | _ => none
    { modeling := maxModeling summary.modeling (f.callModeling callee)
      reads := summary.reads ++ readsOfAll call.operands
      writes := summary.writes ++ (callee.elim [] f.outputs).map .name }
  | .opaqueStep _ => { summary with modeling := .opaqueModel }
  | .return | .allocation _ _ => summary

def summarize (f : NameFacts) (operations : List TransferOperation) : TransferSummary :=
  operations.foldl (TransferSummary.applyOperation f) {}

def TransferOperation.withoutSymbol : TransferOperation → Bool
  | .assign _ none _ _ => true
  | _ => false

/-- The summary of an edge.  The back edges with operations are those on which a FOR counts; where its
counter has no name, the summary is not exact. -/
def Edge.summary (f : NameFacts) (edge : Edge) : Option TransferSummary :=
  edge.transfer.map fun operations =>
    if edge.isBackEdge && operations.any TransferOperation.withoutSymbol then
      { summarize f operations with modeling := .conservative }
    else summarize f operations

end SemantiST.Stg
