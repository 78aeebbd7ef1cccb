import Mathlib.Data.String.Basic
import SemantiST.Lib.Scc
import SemantiST.Lib.Sort

/-!
# Components of the semantic graph

`strongly_connected_components` of `fuzzer/semantic/planning.py`.
-/

namespace SemantiST.Semantic

open Lib

/-- An edge of the graph; an end that is missing or no string is `none`. -/
structure GraphEdge where
  id : String
  source : Option String
  destination : Option String

namespace GraphEdge

/-- The ends of an edge, where both are strings. -/
def ends (edge : GraphEdge) : Option (String × String) :=
  match edge.source, edge.destination with
  | some source, some destination => some (source, destination)
  | _, _ => none

end GraphEdge

/-- `adjacency[source]`, sorted. -/
def destinations (edges : List GraphEdge) (source : String) : List String :=
  ((edges.filterMap GraphEdge.ends).filterMap fun (a, b) => if a = source then some b else none).insertionSort
    (· ≤ ·)

/-- The nodes that a search can meet. -/
def graphNodes (nodeIds : List String) (edges : List GraphEdge) : List String :=
  sortDedup nodeIds ++ (edges.filterMap GraphEdge.ends).map Prod.snd

/-- The components in the order of their first nodes; `none` where the search needs deeper calls than there
are nodes.  The limit that Python sets to nested calls is left out. -/
def stronglyConnectedComponents (nodeIds : List String) (edges : List GraphEdge) :
    Option (List (List String)) :=
  (Tarjan.visitAll (destinations edges) (graphNodes nodeIds edges).length {} (sortDedup nodeIds)).map fun search =>
    sortBy (compareOn fun component => component.headD "") search.components

/-! ## What the components are -/

/-- An edge leads from `a` to `b`. -/
def Leads (edges : List GraphEdge) (a b : String) : Prop := ∃ edge ∈ edges, edge.ends = some (a, b)

def Reachable (edges : List GraphEdge) : String → String → Prop := Relation.ReflTransGen (Leads edges)

/-- Two nodes are in one component. -/
def SameComponent (components : List (List String)) (a b : String) : Prop :=
  ∃ component ∈ components, a ∈ component ∧ b ∈ component

variable {nodeIds nodeIds' : List String} {edges edges' : List GraphEdge} {a b : String}

theorem mem_destinations : b ∈ destinations edges a ↔ Leads edges a b := by
  rw [destinations, List.mem_insertionSort, List.mem_filterMap]
  constructor
  · rintro ⟨⟨c, d⟩, hmem, heq⟩
    obtain ⟨edge, hedge, hends⟩ := List.mem_filterMap.1 hmem
    dsimp only at heq
    split at heq
    · rename_i hca
      rw [hca, Option.some.inj heq] at hends
      exact ⟨edge, hedge, hends⟩
    · cases heq
  · rintro ⟨edge, hedge, hends⟩
    exact ⟨(a, b), List.mem_filterMap.2 ⟨edge, hedge, hends⟩, if_pos rfl⟩

theorem reaches_iff : Tarjan.Reaches (destinations edges) a b ↔ Reachable edges a b := by
  have hsame : (fun a b => b ∈ destinations edges a) = Leads edges := by
    funext a b
    exact propext mem_destinations
  rw [Tarjan.Reaches, hsame, Reachable]

/-- The order of the edges does not matter for the sorted destinations. -/
theorem destinations_congr (h : edges.Perm edges') : destinations edges = destinations edges' := by
  funext source
  have hperm := (h.filterMap GraphEdge.ends).filterMap fun (a, b) => if a = source then some b else none
  have hperm' := ((List.perm_insertionSort (· ≤ ·) _).trans hperm).trans (List.perm_insertionSort (· ≤ ·) _).symm
  exact hperm'.eq_of_pairwise (fun a b _ _ hab hba => le_antisymm hab hba) (List.pairwise_insertionSort _ _)
    (List.pairwise_insertionSort _ _)

theorem stronglyConnectedComponents_congr (hnodes : ∀ a, a ∈ nodeIds ↔ a ∈ nodeIds') (h : edges.Perm edges') :
    stronglyConnectedComponents nodeIds edges = stronglyConnectedComponents nodeIds' edges' := by
  have hsorted : sortDedup nodeIds = sortDedup nodeIds' := sortDedup_eq_iff.2 hnodes
  have hlength : (graphNodes nodeIds edges).length = (graphNodes nodeIds' edges').length := by
    rw [graphNodes, graphNodes, hsorted, List.length_append, List.length_append]
    exact congrArg _ ((h.filterMap GraphEdge.ends).map Prod.snd).length_eq
  rw [stronglyConnectedComponents, destinations_congr h, hsorted, hlength]
  rfl

/-- **The components of a graph**: they are disjoint, hold what is reached from the nodes, and are the classes
of nodes that reach each other. -/
theorem stronglyConnectedComponents_spec (nodeIds : List String) (edges : List GraphEdge) :
    ∃ components, stronglyConnectedComponents nodeIds edges = some components ∧ components.flatten.Nodup ∧
      (∀ a, a ∈ components.flatten ↔ ∃ node ∈ nodeIds, Reachable edges node a) ∧
      ∀ component ∈ components, component ≠ [] ∧
        ∀ a ∈ component, ∀ b, b ∈ component ↔ Reachable edges a b ∧ Reachable edges b a := by
  have hnodes : ∀ a ∈ graphNodes nodeIds edges, ∀ b ∈ destinations edges a, b ∈ graphNodes nodeIds edges := by
    intro a _ b hb
    obtain ⟨edge, hedge, hends⟩ := mem_destinations.1 hb
    exact List.mem_append_right _ (List.mem_map.2 ⟨(a, b), List.mem_filterMap.2 ⟨edge, hedge, hends⟩, rfl⟩)
  obtain ⟨search, hrun, hnodup, hmem, hstrong⟩ := Tarjan.visitAll_spec hnodes
    (List.subset_append_left (sortDedup nodeIds) _) (le_refl _)
  have hperm : (sortBy (compareOn fun component : List String => component.headD "") search.components).Perm
      search.components := List.perm_insertionSort _ _
  refine ⟨_, by rw [stronglyConnectedComponents, hrun, Option.map_some], ?_, fun a => ?_, fun component hc => ?_⟩
  · exact hperm.flatten.nodup_iff.2 hnodup
  · rw [hperm.flatten.mem_iff, hmem]
    exact exists_congr fun node => and_congr mem_sortDedup reaches_iff
  · obtain ⟨hne, hclass⟩ := hstrong component (hperm.mem_iff.1 hc)
    refine ⟨hne, fun a ha b => ?_⟩
    rw [hclass a ha, reaches_iff, reaches_iff]

/-- **The components are right and do not depend on any order**: they partition the nodes, two nodes are in one
component exactly when each reaches the other, and neither the order of the edges nor that of the nodes
matters. -/
theorem components_correct (nodeIds : List String) (edges : List GraphEdge) :
    ∃ components, stronglyConnectedComponents nodeIds edges = some components ∧
      (components.flatten.Nodup ∧ [] ∉ components) ∧
      (∀ a, a ∈ components.flatten ↔ ∃ node ∈ nodeIds, Reachable edges node a) ∧
      ((∀ a ∈ nodeIds, ∀ b, Leads edges a b → b ∈ nodeIds) → ∀ a, a ∈ components.flatten ↔ a ∈ nodeIds) ∧
      (∀ a ∈ components.flatten, ∀ b,
        SameComponent components a b ↔ Reachable edges a b ∧ Reachable edges b a) ∧
      ∀ nodeIds' edges', (∀ a, a ∈ nodeIds ↔ a ∈ nodeIds') → edges.Perm edges' →
        stronglyConnectedComponents nodeIds' edges' = some components := by
  obtain ⟨components, hrun, hnodup, hmem, hclass⟩ := stronglyConnectedComponents_spec nodeIds edges
  refine ⟨components, hrun, ⟨hnodup, fun hempty => (hclass [] hempty).1 rfl⟩, hmem, fun hgraph a => ?_,
    fun a ha b => ⟨?_, fun hreach => ?_⟩, fun nodeIds' edges' hnodes hperm => ?_⟩
  · rw [hmem]
    constructor
    · rintro ⟨node, hnode, hreach⟩
      induction hreach with
      | refl => exact hnode
      | tail _ hedge ih => exact hgraph _ ih _ hedge
    · exact fun ha => ⟨a, ha, .refl⟩
  · rintro ⟨component, hc, hac, hbc⟩
    exact ((hclass component hc).2 a hac b).1 hbc
  · obtain ⟨component, hc, hac⟩ := List.mem_flatten.1 ha
    exact ⟨component, hc, hac, ((hclass component hc).2 a hac b).2 hreach⟩
  · rw [← stronglyConnectedComponents_congr hnodes hperm, hrun]

end SemantiST.Semantic
