import SemantiST.Lib.Loop
import SemantiST.Lib.Trail
import SemantiST.Semantic.Planning

/-!
# Paths through the semantic graph

`bounded_paths` of `fuzzer/semantic/planning.py`: a breadth-first search over simple paths that stops at
several limits and says when it did.
-/

namespace SemantiST.Semantic

open Lib

/-! ## The search -/

/-- An edge both of whose ends are strings. -/
structure Link where
  id : String
  source : String
  destination : String
  deriving DecidableEq

def GraphEdge.link (edge : GraphEdge) : Option Link :=
  edge.ends.map fun (source, destination) => ⟨edge.id, source, destination⟩

/-- A graph; the identifier of a node is `none` where it is no string. -/
structure SemanticGraph where
  nodes : List (Option String)
  edges : List GraphEdge

namespace SemanticGraph

def nodeIds (graph : SemanticGraph) : List String := graph.nodes.filterMap id

def links (graph : SemanticGraph) : List Link := graph.edges.filterMap GraphEdge.link

end SemanticGraph

structure PathLimits where
  maxPaths : ℤ := 8
  maxNodes : Option ℤ := none
  maxExpansions : ℤ := 4096

inductive TruncationReason where
  | expansionBudget | nodeLimit | pathLimit
  deriving DecidableEq

structure PathDiagnostics where
  maxExpansions : ℤ
  maxPaths : ℤ
  expansionCount : ℕ := 0
  queuePeak : ℕ := 0
  truncated : Bool := false
  truncationReasons : List TruncationReason := []
  maxNodes : Option ℤ := none

structure Path where
  nodeIds : List String
  edgeIds : List String
  deriving DecidableEq

/-- An entry of the queue. -/
structure PathPrefix where
  node : String
  pathNodes : List String
  pathEdges : List String
  enteredComponents : List ℕ
  visitedNodes : List String

structure SearchState where
  queue : List PathPrefix
  results : List Path := []
  reasons : List TruncationReason := []
  expansionCount : ℕ := 0
  queuePeak : ℕ := 1

/-- What the search does not change. -/
structure PathSearch where
  links : List Link
  components : List (List String)
  destination : String
  limit : ℤ
  maxPaths : ℤ
  maxExpansions : ℤ

namespace PathSearch

variable (search : PathSearch)

/-- `component_of[node]` -/
def componentOf (node : String) : ℕ := search.components.findIdx fun component => node ∈ component

/-- `adjacency.get(node, [])` -/
def outgoing (node : String) : List Link :=
  sortBy (compareLex (compareOn Link.destination) (compareOn Link.id))
    (search.links.filter fun edge => edge.source = node)

/-- The component of a new node was entered before and left again. -/
def reenters (entry : PathPrefix) (successor : String) : Prop :=
  search.componentOf successor ≠ search.componentOf entry.node ∧
    search.componentOf successor ∈ entry.enteredComponents

instance (entry : PathPrefix) (successor : String) : Decidable (search.reenters entry successor) :=
  inferInstanceAs (Decidable (_ ∧ _))

def extend (entry : PathPrefix) (edge : Link) : PathPrefix where
  node := edge.destination
  pathNodes := entry.pathNodes ++ [edge.destination]
  pathEdges := entry.pathEdges ++ [edge.id]
  enteredComponents := search.componentOf edge.destination :: entry.enteredComponents
  visitedNodes := edge.destination :: entry.visitedNodes

def push (s : SearchState) (entry : PathPrefix) : SearchState :=
  { s with queue := s.queue ++ [entry], queuePeak := max s.queuePeak (s.queue ++ [entry]).length }

/-- The edges that leave an entry, up to the budget. -/
def expand (entry : PathPrefix) : List Link → SearchState → SearchState
  | [], s => s
  | edge :: edges, s =>
    if search.maxExpansions ≤ s.expansionCount then
      { s with reasons := .expansionBudget :: s.reasons }
    else
      let s := { s with expansionCount := s.expansionCount + 1 }
      if edge.destination ∈ entry.visitedNodes then expand entry edges s
      else if search.reenters entry edge.destination then expand entry edges s
      else expand entry edges (push s (search.extend entry edge))

/-- One round for the entry at the head of the queue. -/
def visit (entry : PathPrefix) (s : SearchState) : SearchState :=
  if entry.node = search.destination then
    { s with results := s.results ++ [⟨entry.pathNodes, entry.pathEdges⟩] }
  else if search.limit ≤ entry.pathNodes.length then
    if ∃ edge ∈ search.outgoing entry.node, edge.destination ∉ entry.visitedNodes then
      { s with reasons := .nodeLimit :: s.reasons }
    else s
  else search.expand entry (search.outgoing entry.node) s

/-- `while queue and len(results) < max_paths`, left as well where the budget is spent. -/
def step (s : SearchState) : Option SearchState :=
  match s.queue with
  | [] => none
  | entry :: queue =>
    if search.maxPaths ≤ s.results.length ∨ .expansionBudget ∈ s.reasons then none
    else some (search.visit entry { s with queue })

def initial (start : String) : SearchState where
  queue := [⟨start, [start], [], [search.componentOf start], [start]⟩]

def run (start : String) : SearchState :=
  loop search.step (search.maxExpansions.toNat + 1) (search.initial start)

/-- The reasons, with what is seen when the loop is left. -/
def reasonsOf (s : SearchState) : List TruncationReason :=
  if s.queue ≠ [] ∧ search.maxPaths ≤ s.results.length then .pathLimit :: s.reasons else s.reasons

end PathSearch

inductive PathError where
  /-- path search limits must be positive -/
  | limits
  /-- calls of the component search that are too deep -/
  | depth

def boundedPaths (graph : SemanticGraph) (start destination : String) (limits : PathLimits) :
    Except PathError (List Path × PathDiagnostics) :=
  if limits.maxPaths < 1 ∨ limits.maxExpansions < 1 ∨ ∃ n ∈ limits.maxNodes, n < 1 then .error .limits
  else
    let diagnostics : PathDiagnostics :=
      { maxExpansions := limits.maxExpansions, maxPaths := limits.maxPaths }
    if start ∉ graph.nodeIds ∨ destination ∉ graph.nodeIds then .ok ([], diagnostics)
    else
      match stronglyConnectedComponents graph.nodeIds (graph.edges.filter fun edge => edge.link.isSome) with
      | none => .error .depth
      | some components =>
        let limit := limits.maxNodes.getD (max 2 (graph.nodeIds.length + components.length : ℕ))
        let search : PathSearch :=
          ⟨graph.links, components, destination, limit, limits.maxPaths, limits.maxExpansions⟩
        let s := search.run start
        let reasons := search.reasonsOf s
        .ok (s.results,
          { diagnostics with
            expansionCount := s.expansionCount
            queuePeak := s.queuePeak
            truncated := reasons ≠ []
            truncationReasons :=
              [.expansionBudget, .nodeLimit, .pathLimit].filter fun reason => reason ∈ reasons
            maxNodes := some limit })

/-! ## Simple paths -/

namespace Link

abbrev Follows : String → List Link → Prop := Trail.Follows Link.source Link.destination
abbrev endOf : String → List Link → String := Trail.endOf Link.destination
abbrev nodesOf : String → List Link → List String := Trail.nodesOf Link.destination
abbrev Simple : List Link → String → List Link → Prop := Trail.Simple Link.source Link.destination

end Link

/-- What is recorded of a trail. -/
def pathOf (start : String) (trail : List Link) : Path := ⟨Link.nodesOf start trail, trail.map Link.id⟩

/-- A path of the graph from `start` to `destination` that meets no node twice. -/
def SimplePath (graph : SemanticGraph) (start destination : String) (path : Path) : Prop :=
  start ∈ graph.nodeIds ∧ destination ∈ graph.nodeIds ∧
    ∃ trail, Link.Simple graph.links start trail ∧ Link.endOf start trail = destination ∧
      path = pathOf start trail

/-- The destination is reached from the start. -/
def Connected (graph : SemanticGraph) (start destination : String) : Prop :=
  start ∈ graph.nodeIds ∧ destination ∈ graph.nodeIds ∧ Reachable graph.edges start destination

/-! ## Components along a trail -/

/-- The components are the classes of nodes that reach each other, of all that is reached from `start`. -/
structure Classes (links : List Link) (start : String) (components : List (List String)) : Prop where
  reached : ∀ a, Relation.ReflTransGen (Trail.Leads Link.source Link.destination links) start a →
    a ∈ components.flatten
  strong : ∀ component ∈ components, ∀ a ∈ component, ∀ b, b ∈ component ↔
    Relation.ReflTransGen (Trail.Leads Link.source Link.destination links) a b ∧
      Relation.ReflTransGen (Trail.Leads Link.source Link.destination links) b a

namespace PathSearch

section Components

variable {search : PathSearch} {start a b : String} {trail : List Link} {edge : Link}

theorem findIdx_congr {α : Type} {p q : α → Bool} {l : List α} (h : ∀ a ∈ l, p a = q a) :
    l.findIdx p = l.findIdx q := by
  induction l with
  | nil => rfl
  | cons a l ih =>
    rw [List.findIdx_cons, List.findIdx_cons, h a List.mem_cons_self,
      ih fun b hb => h b (List.mem_cons_of_mem a hb)]

/-- Nodes that reach each other have one component. -/
theorem componentOf_eq (h : Classes search.links start search.components)
    (hab : Relation.ReflTransGen (Trail.Leads Link.source Link.destination search.links) a b)
    (hba : Relation.ReflTransGen (Trail.Leads Link.source Link.destination search.links) b a) :
    search.componentOf a = search.componentOf b := by
  refine findIdx_congr fun component hc => decide_eq_decide.2 ⟨fun ha => ?_, fun hb => ?_⟩
  · exact (h.strong component hc a ha b).2 ⟨hab, hba⟩
  · exact (h.strong component hc b hb a).2 ⟨hba, hab⟩

/-- Nodes with one component reach each other. -/
theorem reaches_of_componentOf_eq (h : Classes search.links start search.components)
    (ha : a ∈ search.components.flatten) (heq : search.componentOf a = search.componentOf b) :
    Relation.ReflTransGen (Trail.Leads Link.source Link.destination search.links) a b ∧
      Relation.ReflTransGen (Trail.Leads Link.source Link.destination search.links) b a := by
  have hlt : search.componentOf a < search.components.length := by
    obtain ⟨component, hc, hac⟩ := List.mem_flatten.1 ha
    exact List.findIdx_lt_length_of_exists ⟨component, hc, decide_eq_true hac⟩
  have hmema : a ∈ search.components[search.componentOf a] :=
    of_decide_eq_true (List.findIdx_getElem (w := hlt))
  have hlt' : search.componentOf b < search.components.length := heq ▸ hlt
  have hmemb : b ∈ search.components[search.componentOf b] :=
    of_decide_eq_true (List.findIdx_getElem (w := hlt'))
  simp only [← heq] at hmemb
  exact (h.strong _ (List.getElem_mem hlt) a hmema b).1 hmemb

/-- The entry for a trail. -/
def entryOf (search : PathSearch) (start : String) (trail : List Link) : PathPrefix where
  node := Link.endOf start trail
  pathNodes := Link.nodesOf start trail
  pathEdges := trail.map Link.id
  enteredComponents := ((Link.nodesOf start trail).map search.componentOf).reverse
  visitedNodes := (Link.nodesOf start trail).reverse

theorem extend_entryOf : search.extend (search.entryOf start trail) edge =
    search.entryOf start (trail ++ [edge]) := by
  simp [extend, entryOf, Trail.nodesOf_concat]

/-- **No simple path is lost at a component that was left.** -/
theorem not_reenters (h : Classes search.links start search.components)
    (hsimple : Link.Simple search.links start (trail ++ [edge])) :
    ¬search.reenters (search.entryOf start trail) edge.destination := by
  rintro ⟨hne, hentered⟩
  obtain ⟨htrail, hedge, hsource, -⟩ := Trail.simple_concat.1 hsimple
  rw [entryOf, List.mem_reverse, List.mem_map] at hentered
  obtain ⟨a, ha, heq⟩ := hentered
  have hlast : Relation.ReflTransGen (Trail.Leads Link.source Link.destination search.links)
      (Link.endOf start trail) edge.destination := .single ⟨edge, hedge, hsource, rfl⟩
  have hstart := Trail.reaches_end htrail.follows htrail.edges List.mem_cons_self
  obtain ⟨hback, -⟩ := reaches_of_componentOf_eq h (h.reached _ (hstart.trans hlast)) heq.symm
  have hreach := Trail.reaches_end htrail.follows htrail.edges ha
  exact hne (componentOf_eq h (hback.trans hreach) hlast)

theorem mem_outgoing : edge ∈ search.outgoing a ↔ edge ∈ search.links ∧ edge.source = a := by
  rw [outgoing, sortBy, List.mem_insertionSort, List.mem_filter, decide_eq_true_iff]

end Components

/-! ## What a run has explored -/

/-- A state of the search: the trails of `done` were taken off the queue, those of `waiting` stand there;
the extensions in `skip` are still to be looked at. -/
structure Explored (search : PathSearch) (start : String) (s : SearchState) (done waiting : List (List Link))
    (depth : ℕ) (skip : List (List Link)) : Prop where
  queue : s.queue = waiting.map (search.entryOf start)
  results : s.results =
    (done.filter fun trail => Link.endOf start trail = search.destination).map (pathOf start)
  simple : ∀ trail ∈ done ++ waiting, Link.Simple search.links start trail
  parents : ∀ trail edge, trail ++ [edge] ∈ done ++ waiting → trail ∈ done
  root : [] ∈ done ++ waiting
  sorted : (done ++ waiting).Pairwise fun trail trail' => trail.length ≤ trail'.length
  depth_ge : ∀ trail ∈ done, trail.length ≤ depth
  width : ∀ trail ∈ waiting, depth ≤ trail.length ∧ trail.length ≤ depth + 1
  fresh : search.links.Nodup → (skip ++ (done ++ waiting)).Nodup
  complete : s.reasons = [] → ∀ trail ∈ done, Link.endOf start trail ≠ search.destination →
    ∀ edge, Link.Simple search.links start (trail ++ [edge]) →
      trail ++ [edge] ∈ skip ∨ trail ++ [edge] ∈ done ++ waiting
  budget : (s.expansionCount : ℤ) ≤ search.maxExpansions

variable {search : PathSearch} {start : String} {s : SearchState} {done waiting skip : List (List Link)}
  {depth : ℕ} {trail : List Link} {edge : Link}

theorem explored_initial (hbudget : 1 ≤ search.maxExpansions) :
    Explored search start (search.initial start) [] [[]] 0 [] := by
  refine ⟨rfl, rfl, fun trail ht => ?_, fun trail edge ht => ?_, List.mem_cons_self, List.pairwise_singleton _ _,
    fun trail ht => (nomatch ht), fun trail ht => ?_, fun _ => List.nodup_singleton _,
    fun _ trail ht => (nomatch ht), ?_⟩
  · rw [List.mem_singleton.1 ht]
    exact Trail.simple_nil
  · exact absurd (List.mem_singleton.1 ht) (List.concat_ne_nil edge trail)
  · rw [List.mem_singleton.1 ht]
    exact ⟨le_refl _, Nat.zero_le _⟩
  · exact (by omega : (0 : ℤ) ≤ search.maxExpansions)

/-- A state with a reason has nothing more to be looked at. -/
theorem Explored.stop (h : Explored search start s done waiting depth skip) (reason : TruncationReason) :
    Explored search start { s with reasons := reason :: s.reasons } done waiting depth [] :=
  ⟨h.queue, h.results, h.simple, h.parents, h.root, h.sorted, h.depth_ge, h.width,
    fun hnodup => (List.nodup_append.1 (h.fresh hnodup)).2.1, fun hnil => (nomatch hnil), h.budget⟩

/-- An extension that is no simple path is dropped. -/
theorem Explored.drop {n : ℕ} (h : Explored search start s done waiting depth ((trail ++ [edge]) :: skip))
    (hnot : ¬Link.Simple search.links start (trail ++ [edge])) (hbudget : (n : ℤ) ≤ search.maxExpansions) :
    Explored search start { s with expansionCount := n } done waiting depth skip := by
  refine ⟨h.queue, h.results, h.simple, h.parents, h.root, h.sorted, h.depth_ge, h.width,
    fun hnodup => (List.nodup_cons.1 (h.fresh hnodup)).2, fun hnil t ht hend e hsimple => ?_, hbudget⟩
  refine (h.complete hnil t ht hend e hsimple).imp_left fun hmem => ?_
  refine (List.mem_cons.1 hmem).resolve_left fun heq => ?_
  rw [heq] at hsimple
  exact hnot hsimple

/-- An extension that is a simple path goes to the end of the queue. -/
theorem Explored.push (h : Explored search start s done waiting depth ((trail ++ [edge]) :: skip))
    (htrail : trail ∈ done) (hdepth : trail.length = depth)
    (hsimple : Link.Simple search.links start (trail ++ [edge])) {n : ℕ} (hbudget : (n : ℤ) ≤ search.maxExpansions) :
    Explored search start (push { s with expansionCount := n } (search.entryOf start (trail ++ [edge]))) done
      (waiting ++ [trail ++ [edge]]) depth skip := by
  have hlength : (trail ++ [edge]).length = depth + 1 := by
    rw [List.length_append, hdepth]
    rfl
  have hmem (t : List Link) : t ∈ done ++ (waiting ++ [trail ++ [edge]]) ↔
      t ∈ done ++ waiting ∨ t = trail ++ [edge] := by
    rw [← List.append_assoc, List.mem_append, List.mem_singleton]
  refine ⟨?_, h.results, fun t ht => ?_, fun t e ht => ?_, (hmem _).2 (.inl h.root), ?_, h.depth_ge,
    fun t ht => ?_, fun hnodup => ?_, fun hnil t ht hend e he => ?_, hbudget⟩
  · change s.queue ++ _ = _
    rw [h.queue, List.map_append]
    rfl
  · rcases (hmem t).1 ht with ht | rfl
    · exact h.simple t ht
    · exact hsimple
  · rcases (hmem _).1 ht with ht | heq
    · exact h.parents t e ht
    · rwa [(List.append_inj' heq rfl).1]
  · rw [← List.append_assoc, List.pairwise_append]
    refine ⟨h.sorted, List.pairwise_singleton _ _, fun t ht t' ht' => ?_⟩
    rw [List.mem_singleton.1 ht', hlength]
    rcases List.mem_append.1 ht with ht | ht
    · exact Nat.le_succ_of_le (h.depth_ge t ht)
    · exact (h.width t ht).2
  · rcases List.mem_append.1 ht with ht | ht
    · exact h.width t ht
    · rw [List.mem_singleton.1 ht, hlength]
      exact ⟨Nat.le_succ _, le_refl _⟩
  · have hperm : ((trail ++ [edge]) :: skip ++ (done ++ waiting)).Perm
        (skip ++ (done ++ (waiting ++ [trail ++ [edge]]))) := by
      simp only [List.cons_append, ← List.append_assoc]
      exact (List.perm_append_singleton _ _).symm
    exact hperm.nodup_iff.1 (h.fresh hnodup)
  · rcases h.complete hnil t ht hend e he with hskip | hold
    · rcases List.mem_cons.1 hskip with heq | hskip
      · exact .inr ((hmem _).2 (.inr heq))
      · exact .inl hskip
    · exact .inr ((hmem _).2 (.inl hold))

/-- The first trail is taken off the queue. -/
theorem Explored.pop (h : Explored search start s done (trail :: waiting) depth [])
    (results : List Path) (hresults : results =
      ((done ++ [trail]).filter fun trail => Link.endOf start trail = search.destination).map (pathOf start)) :
    Explored search start
      { s with queue := waiting.map (search.entryOf start), results := results } (done ++ [trail]) waiting
      trail.length
      (if Link.endOf start trail = search.destination then []
        else (search.outgoing (Link.endOf start trail)).map fun edge => trail ++ [edge]) := by
  have hmem : done ++ [trail] ++ waiting = done ++ trail :: waiting := by simp
  have hwidth := h.width trail List.mem_cons_self
  refine ⟨rfl, hresults, ?_, fun t e ht => ?_, ?_, ?_, fun t ht => ?_, fun t ht => ?_, fun hnodup => ?_,
    fun hnil t ht hend e hsimple => ?_, h.budget⟩
  · rw [hmem]
    exact h.simple
  · rw [hmem] at ht
    exact List.mem_append_left _ (h.parents t e ht)
  · rw [hmem]
    exact h.root
  · rw [hmem]
    exact h.sorted
  · rcases List.mem_append.1 ht with ht | ht
    · exact (List.pairwise_append.1 h.sorted).2.2 t ht trail List.mem_cons_self
    · rw [List.mem_singleton.1 ht]
  · have hle := (List.pairwise_cons.1 (List.pairwise_append.1 h.sorted).2.1).1 t ht
    have hup := h.width t (List.mem_cons_of_mem trail ht)
    omega
  · -- the extensions of a trail that was not taken off before are new
    have hold := h.fresh hnodup
    rw [List.nil_append] at hold
    rw [hmem]
    split
    · exact hold
    · refine List.nodup_append.2 ⟨?_, hold, ?_⟩
      · refine (List.nodup_map_iff fun e e' heq => ?_).2 ?_
        · exact (List.cons.inj (List.append_inj' heq rfl).2).1
        · rw [outgoing, sortBy, (List.perm_insertionSort _ _).nodup_iff]
          exact hnodup.filter _
      · rintro t ht t' ht' rfl
        obtain ⟨e, -, rfl⟩ := List.mem_map.1 ht
        have hdone := h.parents trail e ht'
        exact (List.nodup_append.1 hold).2.2 trail hdone trail List.mem_cons_self rfl
  · rcases List.mem_append.1 ht with ht | ht
    · rw [hmem]
      exact .inr ((h.complete hnil t ht hend e hsimple).resolve_left List.not_mem_nil)
    · rw [List.mem_singleton.1 ht] at hend hsimple ⊢
      rw [if_neg hend]
      obtain ⟨-, he, hsource, -⟩ := Trail.simple_concat.1 hsimple
      exact .inl (List.mem_map.2 ⟨e, mem_outgoing.2 ⟨he, hsource⟩, rfl⟩)

/-- An edge that leaves a trail makes a simple path where it does not lead back. -/
theorem simple_concat_iff (htrail : Link.Simple search.links start trail)
    (hedge : edge ∈ search.outgoing (Link.endOf start trail)) :
    Link.Simple search.links start (trail ++ [edge]) ↔ edge.destination ∉ Link.nodesOf start trail := by
  obtain ⟨hmem, hsource⟩ := mem_outgoing.1 hedge
  rw [Link.Simple, Trail.simple_concat]
  exact ⟨fun h => h.2.2.2, fun h => ⟨htrail, hmem, hsource, h⟩⟩

theorem mem_visited {a : String} : a ∈ (search.entryOf start trail).visitedNodes ↔ a ∈ Link.nodesOf start trail :=
  List.mem_reverse

/-- **The edges of an entry**: each makes a new entry, or no simple path, or the search is cut. -/
theorem expand_spec (hclasses : Classes search.links start search.components) (edges : List Link)
    (hedges : edges ⊆ search.outgoing (Link.endOf start trail))
    (h : Explored search start s done waiting depth (edges.map fun edge => trail ++ [edge]))
    (htrail : trail ∈ done) (hdepth : trail.length = depth) :
    ∃ waiting', Explored search start (search.expand (search.entryOf start trail) edges s) done waiting' depth
      [] := by
  induction edges generalizing s waiting with
  | nil => exact ⟨waiting, h⟩
  | cons edge edges ih =>
    obtain ⟨hedge, hedges⟩ := List.cons_subset.1 hedges
    have hsimple := simple_concat_iff (h.simple trail (List.mem_append_left _ htrail)) hedge
    unfold expand
    split
    · exact ⟨waiting, h.stop _⟩
    · rename_i hbudget
      have hcount : ((s.expansionCount + 1 : ℕ) : ℤ) ≤ search.maxExpansions := by
        rw [not_le] at hbudget
        exact_mod_cast hbudget
      dsimp only
      split
      · rename_i hvisited
        exact ih hedges (h.drop (fun hs => hsimple.1 hs (mem_visited.1 hvisited)) hcount)
      · rename_i hvisited
        have hs := hsimple.2 fun hmem => hvisited (mem_visited.2 hmem)
        rw [if_neg (not_reenters hclasses hs), extend_entryOf]
        exact ih hedges (h.push htrail hdepth hs hcount)

/-- What may still be done: expansions, and entries of the queue. -/
def remaining (search : PathSearch) (s : SearchState) : ℕ :=
  (search.maxExpansions.toNat - s.expansionCount) + s.queue.length

theorem expand_remaining_le (entry : PathPrefix) (edges : List Link) (s : SearchState) :
    search.remaining (search.expand entry edges s) ≤ search.remaining s := by
  induction edges generalizing s with
  | nil => exact le_refl _
  | cons edge edges ih =>
    unfold expand
    split
    · exact le_refl _
    · rename_i hbudget
      dsimp only
      split
      · refine (ih _).trans ?_
        unfold remaining
        dsimp only
        omega
      · split
        · refine (ih _).trans ?_
          unfold remaining
          dsimp only
          omega
        · refine (ih _).trans ?_
          unfold remaining push
          dsimp only
          rw [List.length_append, List.length_singleton]
          omega

/-- **One round keeps what is known of the search.** -/
theorem visit_spec (hclasses : Classes search.links start search.components)
    (h : Explored search start s done (trail :: waiting) depth []) :
    ∃ waiting' depth', Explored search start
      (search.visit (search.entryOf start trail) { s with queue := waiting.map (search.entryOf start) })
      (done ++ [trail]) waiting' depth' [] := by
  unfold visit
  split
  · rename_i hend
    change Link.endOf start trail = search.destination at hend
    have hpop := h.pop (s.results ++ [pathOf start trail]) (by
      rw [h.results, List.filter_append, List.map_append, List.filter_singleton, decide_eq_true hend]
      rfl)
    rw [if_pos hend] at hpop
    exact ⟨waiting, trail.length, hpop⟩
  · rename_i hend
    change ¬Link.endOf start trail = search.destination at hend
    have hpop := h.pop s.results (by
      rw [h.results, List.filter_append, List.filter_singleton, decide_eq_false hend]
      simp)
    rw [if_neg hend] at hpop
    have htrail : trail ∈ done ++ [trail] := List.mem_append_right done List.mem_cons_self
    split
    · split
      · exact ⟨waiting, trail.length, hpop.stop _⟩
      · rename_i hnone
        refine ⟨waiting, trail.length, ?_⟩
        refine ⟨hpop.queue, hpop.results, hpop.simple, hpop.parents, hpop.root, hpop.sorted, hpop.depth_ge,
          hpop.width, fun hnodup => (List.nodup_append.1 (hpop.fresh hnodup)).2.1,
          fun hnil t ht hne e hsimple => ?_, hpop.budget⟩
        refine .inr ((hpop.complete hnil t ht hne e hsimple).resolve_left fun hmem => ?_)
        -- every edge leads back to a node of the trail
        obtain ⟨e', he', heq⟩ := List.mem_map.1 hmem
        rw [← heq, simple_concat_iff (hpop.simple trail (List.mem_append_left _ htrail)) he'] at hsimple
        exact hnone ⟨e', he', fun hvisited => hsimple (mem_visited.1 hvisited)⟩
    · obtain ⟨waiting', h'⟩ := expand_spec hclasses (search.outgoing (Link.endOf start trail))
        (List.Subset.refl _) hpop htrail rfl
      exact ⟨waiting', trail.length, h'⟩

theorem visit_remaining_le (entry : PathPrefix) (s : SearchState) :
    search.remaining (search.visit entry s) ≤ search.remaining s := by
  unfold visit
  split
  · exact le_refl _
  · split
    · split
      · exact le_refl _
      · exact le_refl _
    · exact expand_remaining_le entry _ s

theorem step_remaining_lt {s' : SearchState} (h : search.step s = some s') :
    search.remaining s' < search.remaining s := by
  unfold step at h
  split at h
  · cases h
  · rename_i entry queue hqueue
    split at h
    · cases h
    · rw [← Option.some.inj h]
      refine (visit_remaining_le entry _).trans_lt ?_
      unfold remaining
      rw [hqueue]
      exact Nat.lt_succ_self _

theorem step_spec {s' : SearchState} (hclasses : Classes search.links start search.components)
    (h : Explored search start s done waiting depth []) (hstep : search.step s = some s') :
    ∃ done' waiting' depth', Explored search start s' done' waiting' depth' [] := by
  unfold step at hstep
  rw [h.queue] at hstep
  cases waiting with
  | nil => cases hstep
  | cons trail waiting =>
    rw [List.map_cons] at hstep
    dsimp only at hstep
    split at hstep
    · cases hstep
    · obtain ⟨waiting', depth', h'⟩ := visit_spec hclasses h
      rw [← Option.some.inj hstep]
      exact ⟨done ++ [trail], waiting', depth', h'⟩

/-- **A whole search**: it ends, in a state where what it knows holds. -/
theorem run_spec (search : PathSearch) (hclasses : Classes search.links start search.components) (hbudget : 1 ≤ search.maxExpansions) :
    search.step (search.run start) = none ∧
      ∃ done waiting depth, Explored search start (search.run start) done waiting depth [] := by
  have hends : Loop search.step (search.initial start) (search.run start) :=
    loop_ends search.remaining (fun s s' hstep => step_remaining_lt hstep) (le_refl _)
  refine ⟨hends.step_eq_none, ?_⟩
  refine hends.invariant (P := fun s => ∃ done waiting depth, Explored search start s done waiting depth [])
    (fun s s' ⟨done, waiting, depth, h⟩ hstep => step_spec hclasses h hstep) ?_
  exact ⟨[], [[]], 0, explored_initial hbudget⟩

end PathSearch

/-! ## The result -/

section Results

variable {search : PathSearch} {start : String} {s : SearchState} {done waiting : List (List Link)} {depth : ℕ}
  {trail trail' : List Link}

theorem pathOf_injective {links : List Link} (h : Link.Simple links start trail)
    (h' : Link.Simple links start trail') (heq : pathOf start trail = pathOf start trail') : trail = trail' := by
  rw [pathOf, pathOf, Path.mk.injEq] at heq
  refine Trail.follows_unique (fun d e hsource hdestination hid => ?_) h.follows h'.follows
    (List.cons.inj heq.1).2 heq.2
  cases d
  cases e
  rw [Link.mk.injEq]
  exact ⟨hid, hsource, hdestination⟩

theorem mem_results (h : PathSearch.Explored search start s done waiting depth []) {path : Path} :
    path ∈ s.results ↔
      ∃ trail ∈ done, Link.endOf start trail = search.destination ∧ path = pathOf start trail := by
  rw [h.results, List.mem_map]
  simp only [List.mem_filter, decide_eq_true_iff, and_assoc, eq_comm (a := path)]

theorem results_nodup (h : PathSearch.Explored search start s done waiting depth [])
    (hlinks : search.links.Nodup) : s.results.Nodup := by
  have hdone : done.Nodup := (List.nodup_append.1 (List.nodup_append.1 (h.fresh hlinks)).2.1).1
  rw [h.results]
  refine List.Nodup.map_on (fun trail ht trail' ht' heq => ?_) (hdone.filter _)
  have hsimple {t : List Link} (ht : t ∈ done.filter fun trail =>
      Link.endOf start trail = search.destination) : Link.Simple search.links start t :=
    h.simple t (List.mem_append_left _ (List.mem_of_mem_filter ht))
  exact pathOf_injective (hsimple ht) (hsimple ht') heq

theorem results_sorted (h : PathSearch.Explored search start s done waiting depth []) :
    s.results.Pairwise fun path path' => path.nodeIds.length ≤ path'.nodeIds.length := by
  rw [h.results, List.pairwise_map]
  refine ((List.pairwise_append.1 h.sorted).1.sublist List.filter_sublist).imp fun {t t'} hle => ?_
  rw [pathOf, pathOf, Link.nodesOf, Trail.nodesOf, Trail.nodesOf, List.length_cons, List.length_cons,
    List.length_map, List.length_map]
  exact Nat.succ_le_succ hle

/-- **Where nothing was cut every simple path was found.** -/
theorem mem_done_of_simple (h : PathSearch.Explored search start s done [] depth []) (hreasons : s.reasons = [])
    (hsimple : Link.Simple search.links start trail)
    (hend : search.destination ∉ Link.nodesOf start trail ∨ Link.endOf start trail = search.destination) :
    trail ∈ done := by
  have hdone {t : List Link} : t ∈ done ++ [] → t ∈ done := by
    rw [List.append_nil]
    exact id
  induction trail using List.reverseRecOn with
  | nil => exact hdone h.root
  | append_singleton trail edge ih =>
    obtain ⟨htrail, -, -, hnot⟩ := Trail.simple_concat.1 hsimple
    -- the destination does not lie on the way
    have hbefore : search.destination ∉ Link.nodesOf start trail := by
      rcases hend with hend | hend
      · intro hmem
        rw [Link.nodesOf, Trail.nodesOf_concat] at hend
        exact hend (List.mem_append_left _ hmem)
      · rw [Link.endOf, Trail.endOf_concat] at hend
        rwa [← hend]
    have hne : Link.endOf start trail ≠ search.destination := by
      intro heq
      rw [← heq] at hbefore
      exact hbefore Trail.endOf_mem_nodesOf
    have hcomplete := h.complete hreasons trail (ih htrail (.inl hbefore)) hne edge hsimple
    exact hdone (hcomplete.resolve_left List.not_mem_nil)

/-- A search that says it was not cut has nothing left on its queue. -/
theorem queue_eq_nil (hstep : search.step s = none) (hreasons : search.reasonsOf s = []) :
    s.queue = [] ∧ s.reasons = [] := by
  unfold PathSearch.reasonsOf at hreasons
  split at hreasons
  · cases hreasons
  · rename_i hnot
    refine ⟨?_, hreasons⟩
    by_contra hne
    obtain ⟨entry, queue, hqueue⟩ := List.exists_cons_of_ne_nil hne
    unfold PathSearch.step at hstep
    rw [hqueue] at hstep
    dsimp only at hstep
    split at hstep
    · rename_i hcut
      rw [hreasons] at hcut
      exact hnot ⟨hne, hcut.resolve_right List.not_mem_nil⟩
    · cases hstep

end Results

section Graph

variable {graph : SemanticGraph} {start destination a b : String}

theorem leads_links : Trail.Leads Link.source Link.destination graph.links a b ↔ Leads graph.edges a b := by
  constructor
  · rintro ⟨link, hlink, rfl, rfl⟩
    obtain ⟨edge, hedge, heq⟩ := List.mem_filterMap.1 hlink
    obtain ⟨ends, hends, rfl⟩ := Option.map_eq_some_iff.1 heq
    exact ⟨edge, hedge, hends⟩
  · rintro ⟨edge, hedge, hends⟩
    exact ⟨⟨edge.id, a, b⟩, List.mem_filterMap.2 ⟨edge, hedge, Option.map_eq_some_iff.2 ⟨_, hends, rfl⟩⟩, rfl, rfl⟩

theorem leads_filter : Leads (graph.edges.filter fun edge => edge.link.isSome) a b ↔ Leads graph.edges a b := by
  refine exists_congr fun edge => ?_
  rw [List.mem_filter, and_assoc]
  refine and_congr_right fun _ => and_iff_right_of_imp fun hends => ?_
  rw [GraphEdge.link, hends]
  rfl

theorem reachable_links :
    Relation.ReflTransGen (Trail.Leads Link.source Link.destination graph.links) a b ↔
      Reachable graph.edges a b := by
  have hsame : Trail.Leads Link.source Link.destination graph.links = Leads graph.edges := by
    funext a b
    exact propext leads_links
  rw [hsame, Reachable]

theorem reachable_filter :
    Reachable (graph.edges.filter fun edge => edge.link.isSome) a b ↔ Reachable graph.edges a b := by
  have hsame : Leads (graph.edges.filter fun edge => edge.link.isSome) = Leads graph.edges := by
    funext a b
    exact propext leads_filter
  rw [Reachable, hsame, Reachable]

theorem connected_iff : Connected graph start destination ↔ ∃ path, SimplePath graph start destination path := by
  constructor
  · rintro ⟨hstart, hdestination, hreach⟩
    obtain ⟨trail, hsimple, hend⟩ := Trail.exists_simple (reachable_links.2 hreach)
    exact ⟨pathOf start trail, hstart, hdestination, trail, hsimple, hend, rfl⟩
  · rintro ⟨path, hstart, hdestination, trail, hsimple, rfl, -⟩
    exact ⟨hstart, hdestination,
      reachable_links.1 (Trail.reaches_end hsimple.follows hsimple.edges List.mem_cons_self)⟩

/-- The components of a graph, for a search that starts in one of its nodes. -/
theorem exists_classes (hstart : start ∈ graph.nodeIds) : ∃ components,
    stronglyConnectedComponents graph.nodeIds (graph.edges.filter fun edge => edge.link.isSome) =
      some components ∧ Classes graph.links start components := by
  obtain ⟨components, hrun, -, hmem, hclass⟩ := stronglyConnectedComponents_spec graph.nodeIds
    (graph.edges.filter fun edge => edge.link.isSome)
  refine ⟨components, hrun, fun a ha => ?_, fun component hc a ha b => ?_⟩
  · rw [hmem]
    exact ⟨start, hstart, reachable_filter.2 (reachable_links.1 ha)⟩
  · rw [(hclass component hc).2 a ha, reachable_filter, reachable_filter, reachable_links, reachable_links]

/-- **The paths are right**: where the limits are positive the search ends; its paths are simple paths from the
start to the destination, come in the order of their lengths, and are different where no edge is listed twice;
it stays within its budget, and where it does not say that it was cut they are all the simple paths. -/
theorem boundedPaths_exact (graph : SemanticGraph) (start destination : String) (limits : PathLimits)
    (hpaths : 1 ≤ limits.maxPaths) (hexpansions : 1 ≤ limits.maxExpansions)
    (hnodes : ∀ n ∈ limits.maxNodes, 1 ≤ n) :
    ∃ paths search, boundedPaths graph start destination limits = .ok (paths, search) ∧
      (graph.links.Nodup → paths.Nodup) ∧ (∀ path ∈ paths, SimplePath graph start destination path) ∧
      (paths.Pairwise fun path path' => path.nodeIds.length ≤ path'.nodeIds.length) ∧
      (search.expansionCount : ℤ) ≤ limits.maxExpansions ∧
      (search.truncated = false → (∀ path, path ∈ paths ↔ SimplePath graph start destination path) ∧
        (paths = [] → ¬Connected graph start destination)) := by
  have hlimits : ¬(limits.maxPaths < 1 ∨ limits.maxExpansions < 1 ∨ ∃ n ∈ limits.maxNodes, n < 1) := by
    rintro (h | h | ⟨n, hn, h⟩)
    · omega
    · omega
    · exact absurd (hnodes n hn) (not_le_of_gt h)
  have hempty {paths : List Path} (hall : ∀ path, path ∈ paths ↔ SimplePath graph start destination path) :
      paths = [] → ¬Connected graph start destination := by
    rintro rfl hconnected
    obtain ⟨path, hpath⟩ := connected_iff.1 hconnected
    exact nomatch (hall path).2 hpath
  unfold boundedPaths
  rw [if_neg hlimits]
  dsimp only
  split
  · rename_i hout
    have hall : ∀ path, path ∈ ([] : List Path) ↔ SimplePath graph start destination path := fun path =>
      ⟨fun h => (nomatch h), fun h => hout.elim (absurd h.1) (absurd h.2.1)⟩
    refine ⟨_, _, rfl, fun _ => .nil, fun path h => (nomatch h), .nil, ?_, fun _ => ⟨hall, hempty hall⟩⟩
    exact (by omega : (0 : ℤ) ≤ limits.maxExpansions)
  · rename_i hin
    rw [not_or, not_not, not_not] at hin
    obtain ⟨components, hrun, hclasses⟩ := exists_classes hin.1
    rw [hrun]
    dsimp only
    set search : PathSearch := ⟨graph.links, components, destination,
      limits.maxNodes.getD (max 2 (graph.nodeIds.length + components.length : ℕ)), limits.maxPaths,
      limits.maxExpansions⟩
    obtain ⟨hstep, done, waiting, depth, h⟩ := PathSearch.run_spec search hclasses hexpansions
    have hsound : ∀ path ∈ (search.run start).results, SimplePath graph start destination path := by
      intro path hpath
      obtain ⟨trail, ht, hend, rfl⟩ := (mem_results h).1 hpath
      exact ⟨hin.1, hin.2, trail, h.simple trail (List.mem_append_left _ ht), hend, rfl⟩
    refine ⟨_, _, rfl, results_nodup h, hsound, results_sorted h, h.budget, fun htruncated => ?_⟩
    have hreasons : search.reasonsOf (search.run start) = [] := by
      simpa using htruncated
    obtain ⟨hqueue, hnil⟩ := queue_eq_nil hstep hreasons
    obtain rfl : waiting = [] := by
      rw [h.queue] at hqueue
      exact List.map_eq_nil_iff.1 hqueue
    have hall : ∀ path, path ∈ (search.run start).results ↔ SimplePath graph start destination path := by
      refine fun path => ⟨hsound path, ?_⟩
      rintro ⟨-, -, trail, hsimple, hend, rfl⟩
      exact (mem_results h).2 ⟨trail, mem_done_of_simple h hnil hsimple (.inr hend), hend, rfl⟩
    exact ⟨hall, hempty hall⟩

end Graph

/-! ## Two ways around -/

def edgeOf (id source destination : String) : GraphEdge := ⟨id, some source, some destination⟩

/-- Two paths of the same length. -/
def diamond : SemanticGraph where
  nodes := [some "entry", some "left", some "right", some "end"]
  edges := [edgeOf "e1" "entry" "left", edgeOf "e2" "left" "end", edgeOf "e3" "entry" "right",
    edgeOf "e4" "right" "end"]

theorem boundedPaths_exact_diamond :
    ∃ paths search, boundedPaths diamond "entry" "end" {} = .ok (paths, search) ∧
      (diamond.links.Nodup → paths.Nodup) ∧ (∀ path ∈ paths, SimplePath diamond "entry" "end" path) ∧
      (paths.Pairwise fun path path' => path.nodeIds.length ≤ path'.nodeIds.length) ∧
      (search.expansionCount : ℤ) ≤ 4096 ∧
      (search.truncated = false → (∀ path, path ∈ paths ↔ SimplePath diamond "entry" "end" path) ∧
        (paths = [] → ¬Connected diamond "entry" "end")) :=
  boundedPaths_exact diamond "entry" "end" {} (by decide) (by decide) (fun n hn => nomatch hn)

example : (boundedPaths diamond "entry" "end" {}).toOption.map (fun r => (r.1, r.2.truncated)) =
    some ([⟨["entry", "left", "end"], ["e1", "e2"]⟩, ⟨["entry", "right", "end"], ["e3", "e4"]⟩], false) := by
  decide +kernel

end SemantiST.Semantic
