import SemantiST.Lib.Worklist
import SemantiST.Stg.Meaning

/-!
# Backward dependencies

The symbols a target depends on (`finalize_def_use` and `finalize_dependencies` of
`compiler/stg/src/extract.rs`): what its hazard reads, what the edges read on the ways to it within a
scan, and what the definitions of all these use.
-/

namespace SemantiST.Stg

open Lib Semantic

/-- What the dependencies of a unit are computed from: the hazards of its nodes, and its edges, which have
identifiers of their own. -/
structure SemanticGraph where
  hazards : List (NodeId × TypedExpression)
  edges : List Edge
  persistentSymbols : List Text
  nodupEdges : (edges.map Edge.id).Nodup

namespace SemanticGraph

variable (g : SemanticGraph) (f : NameFacts)

/-- The hazard of a node; the last one counts. -/
def hazardAt (node : NodeId) : Option TypedExpression :=
  ((g.hazards.filter fun hazard => hazard.1 = node).getLast?).map Prod.snd

/-! ## Definitions and uses -/

/-- The symbol that an operation defines, with each symbol it uses for it. -/
def operationLinks : TransferOperation → List (Text × Text)
  | .assign target targetSymbol value _ =>
    match targetSymbol.or (expressionVariableName target) with
    | some definedSymbol => value.reads.map fun usedSymbol => (definedSymbol, usedSymbol)
    | none => []
  | _ => []

/-- `finalize_def_use` -/
def defUse : List (Text × Text) :=
  g.edges.flatMap fun edge => (edge.transfer.getD []).flatMap operationLinks

def usedBy (definedSymbol : Text) : List Text :=
  (g.defUse.filter fun link => link.1 = definedSymbol).map Prod.snd

/-! ## The ways to a target -/

def incoming (node : NodeId) : List EdgeId :=
  (g.edges.filter fun edge => edge.id.target = node).map Edge.id

/-- Where an edge comes from, unless it comes from the scan before. -/
def sourceInScan (edge : EdgeId) : Option NodeId := if edge.kind = .temporal then none else some edge.source

def visitedEdges (node : NodeId) : List EdgeId :=
  (Worklist.search g.incoming sourceInScan (g.edges.length + 1) ⟨[], [node]⟩).seen

/-- What an edge adds to the dependencies. -/
def edgeReads (edge : Edge) : List Text :=
  edge.guard.elim [] TypedExpression.reads ++ (edge.summary f).elim [] TransferSummary.reads ++
    if edge.id.kind = .temporal then g.persistentSymbols else []

def waysReads (node : NodeId) : List Text :=
  (g.hazardAt node).elim [] TypedExpression.reads ++
    (g.edges.filter fun edge => edge.id ∈ g.visitedEdges node).flatMap (g.edgeReads f)

/-- `backward_dependencies` of a target at a node. -/
def backwardDependencies (node : NodeId) : List Text :=
  let dependencies := g.waysReads f node
  (Worklist.search g.usedBy some (dependencies.length + g.defUse.length) ⟨dependencies, dependencies⟩).seen

variable {g f}

theorem waysReads_subset (node : NodeId) : g.waysReads f node ⊆ g.backwardDependencies f node :=
  Worklist.search_seen _ ⟨g.waysReads f node, g.waysReads f node⟩

theorem hazardReads_subset {node : NodeId} {e : TypedExpression} (h : g.hazardAt node = some e) :
    e.reads ⊆ g.backwardDependencies f node := by
  intro x hx
  apply waysReads_subset
  rw [waysReads, h]
  exact List.mem_append_left _ hx

theorem edgeReads_subset {node : NodeId} {edge : Edge} (hedge : edge ∈ g.edges)
    (hvisited : edge.id ∈ g.visitedEdges node) : g.edgeReads f edge ⊆ g.backwardDependencies f node := by
  intro x hx
  apply waysReads_subset
  apply List.mem_append_right
  exact List.mem_flatMap.2 ⟨edge, List.mem_filter.2 ⟨hedge, by simpa using hvisited⟩, hx⟩

theorem mem_incoming {edge : Edge} (hedge : edge ∈ g.edges) : edge.id ∈ g.incoming edge.id.target :=
  List.mem_map_of_mem (List.mem_filter.2 ⟨hedge, by simp⟩)

/-- All ways within a scan are visited. -/
theorem visitedEdges_closed (node : NodeId) : g.incoming node ⊆ g.visitedEdges node ∧
    ∀ edge ∈ g.visitedEdges node, edge.kind ≠ .temporal → g.incoming edge.source ⊆ g.visitedEdges node := by
  have hitems : ∀ node, g.incoming node ⊆ g.edges.map Edge.id := fun node =>
    List.map_subset _ (List.filter_subset_self _)
  have hcount : Worklist.unseenCount (g.edges.map Edge.id) (⟨[], [node]⟩ : Worklist EdgeId NodeId) +
      [node].length ≤ g.edges.length + 1 := by
    have hle := List.countP_le_length (p := fun e : EdgeId => decide (e ∉ ([] : List EdgeId)))
      (l := g.edges.map Edge.id)
    rw [List.length_map] at hle
    exact Nat.add_le_add_right hle 1
  obtain ⟨hpending, hclosed⟩ := @Worklist.search_closed EdgeId NodeId _ g.incoming sourceInScan
    ⟨[], [node]⟩ (g.edges.map Edge.id) hitems _ hcount ⟨fun _ h => by cases h⟩
  refine ⟨hpending node (List.mem_singleton_self _), fun edge hedge htemporal => ?_⟩
  exact hclosed edge hedge edge.source (if_neg htemporal)

end SemanticGraph

/-- The graph of a unit, as its dependencies are computed from it. -/
def Builder.semanticGraph (s : Builder) (persistentSymbols : List Text)
    (h : (s.edges.map Edge.id).Nodup) : SemanticGraph where
  hazards := s.nodes.filterMap fun node => node.hazard.bind fun key =>
    (s.expressions.find? fun entry => entry.expression.key = key.2).map fun entry =>
      (node.id, entry.expression)
  edges := s.edges
  persistentSymbols := persistentSymbols
  nodupEdges := h

end SemantiST.Stg
