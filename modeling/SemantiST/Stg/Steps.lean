import SemantiST.Stg.Registry

/-!
# What the builder keeps

Whatever it builds, the builder only adds to the graph: the lists of nodes, edges and targets grow at
their ends, the counters stay above what they have given out, and each node comes with its targets.
-/

namespace SemantiST.Stg

open Lib Semantic

variable {roots : List AstExpr} {s s' s'' : Builder}

/-! ## Invariants -/

def Builder.nodeIds (s : Builder) : List NodeId := s.nodes.map Node.id

/-- The kinds of nodes that are made for a predicate. -/
def NodeKind.ofPredicate : NodeKind → Bool
  | .outcome | .loopLatch => true
  | _ => false

/-- The counters are above what they gave out: nodes with one identifier were made for different
predicates. -/
structure Counted (s : Builder) : Prop where
  keyed : ∀ kind span d, s.nodeOrdinals (kind, span, d) ≠ none → d.isSome = kind.ofPredicate
  known : ∀ kind span d, s.nodeOrdinals (kind, span, some d) ≠ none → d ∈ s.nodeIds
  made : ∃ made : List (NodeId × Option NodeId), made.map Prod.fst = s.nodeIds ∧ made.Nodup ∧
    ∀ m ∈ made, ∃ c, s.nodeOrdinals (m.1.kind, m.1.span, m.2) = some c ∧ m.1.occurrence < c

/-- What holds whatever is built. -/
structure Valid (roots : List AstExpr) (s : Builder) : Prop where
  registry : Registry roots s
  counted : Counted s
  edgeOrdinals : s.edges.map (fun edge => edge.id.ordinal) = List.range s.edgeOrdinal

/-- The kinds of the targets that a node comes with. -/
def Node.targetKinds (node : Node) : List TargetKind :=
  match node.id.kind with
  | .entry | .exit | .predicate _ => []
  | .cycleEntry | .cycleExit => [.cycle]
  | .outcome => node.outcome.toList.map fun outcome => outcomeTarget outcome.role
  | .loopLatch => [.loopOutcome]
  | .loopControl => [.controlTransfer]
  | .hazard =>
    if node.hazard.any fun key => key.1 = .externalOutput then [.externalOutput]
    else [.hazardReach, .hazardViolation]

def Node.targetIds (node : Node) : List TargetId := node.targetKinds.map fun kind => ⟨kind, node.id⟩

/-- New nodes come with their targets. -/
def Tidy (s s' : Builder) : Prop :=
  ∃ nodes targets, s'.nodes = s.nodes ++ nodes ∧ s'.targets = s.targets ++ targets ∧
    targets.map Target.id = nodes.flatMap Node.targetIds

/-- What every part of the builder does. -/
structure Grows (roots : List AstExpr) (s s' : Builder) : Prop where
  valid : Valid roots s'
  byAst : s.expressionByAst ⊆ s'.expressionByAst
  nodes : s.nodes <+: s'.nodes
  edges : s.edges <+: s'.edges

/-- What the parts do that make nodes and their targets. -/
structure Step (roots : List AstExpr) (s s' : Builder) : Prop extends Grows roots s s' where
  tidy : Tidy s s'

theorem Tidy.of_eq (hnodes : s'.nodes = s.nodes) (htargets : s'.targets = s.targets) : Tidy s s' :=
  ⟨[], [], by rw [hnodes, List.append_nil], by rw [htargets, List.append_nil], rfl⟩

theorem Tidy.trans (h : Tidy s s') (h' : Tidy s' s'') : Tidy s s'' := by
  obtain ⟨nodes, targets, hnodes, htargets, hids⟩ := h
  obtain ⟨nodes', targets', hnodes', htargets', hids'⟩ := h'
  refine ⟨nodes ++ nodes', targets ++ targets', ?_, ?_, ?_⟩
  · rw [hnodes', hnodes, List.append_assoc]
  · rw [htargets', htargets, List.append_assoc]
  · rw [List.map_append, List.flatMap_append, hids, hids']

theorem Grows.refl (h : Valid roots s) : Grows roots s s :=
  ⟨h, List.Subset.refl _, List.prefix_rfl, List.prefix_rfl⟩

theorem Grows.trans (h : Grows roots s s') (h' : Grows roots s' s'') : Grows roots s s'' :=
  ⟨h'.valid, List.Subset.trans h.byAst h'.byAst, h.nodes.trans h'.nodes, h.edges.trans h'.edges⟩

theorem Step.refl (h : Valid roots s) : Step roots s s := ⟨Grows.refl h, Tidy.of_eq rfl rfl⟩

theorem Step.trans (h : Step roots s s') (h' : Step roots s' s'') : Step roots s s'' :=
  ⟨h.toGrows.trans h'.toGrows, h.tidy.trans h'.tidy⟩

theorem Grows.nodeIds (h : Grows roots s s') : s.nodeIds <+: s'.nodeIds := h.nodes.map Node.id

theorem Grows.mem_nodeIds (h : Grows roots s s') {id : NodeId} (hid : id ∈ s.nodeIds) :
    id ∈ s'.nodeIds := h.nodeIds.subset hid

/-- A step that leaves the graph as it is. -/
theorem Valid.step_of_same (h : Valid roots s) (hregistry : Registry roots s') (hsame : SameGraph s s')
    (hgrows : s.expressionByAst ⊆ s'.expressionByAst) : Step roots s s' := by
  obtain ⟨hnodes, hordinals, hedges, hedgeOrdinal, htargets⟩ := hsame
  refine ⟨⟨⟨hregistry, ?_, by rw [hedges, hedgeOrdinal]; exact h.edgeOrdinals⟩, hgrows, ?_, ?_⟩,
    Tidy.of_eq hnodes htargets⟩
  · obtain ⟨hkeyed, hknown, hmade⟩ := h.counted
    refine ⟨?_, ?_, ?_⟩
    · rw [hordinals]; exact hkeyed
    · simp only [Builder.nodeIds, hordinals, hnodes]; exact hknown
    · simp only [Builder.nodeIds, hordinals, hnodes]; exact hmade
  · exact hnodes ▸ List.prefix_rfl
  · exact hedges ▸ List.prefix_rfl

/-- The builder's own start. -/
theorem valid_empty (roots : List AstExpr) : Valid roots {} where
  registry := registry_empty roots
  counted := ⟨fun _ _ _ h => absurd rfl h, fun _ _ _ h => absurd rfl h,
    [], rfl, List.nodup_nil, fun m hm => by cases hm⟩
  edgeOrdinals := rfl

/-! ## Programs that keep it -/

/-- A program is a step. -/
def Steps (roots : List AstExpr) {α : Type} (x : BuildM α) (s : Builder) : Prop :=
  After x s fun _ s' => Step roots s s'

namespace Steps

variable {α β : Type} {x : BuildM α} {f : α → BuildM β}

theorem pure {r : α} (h : Valid roots s) : Steps roots (Pure.pure r) s := After.pure (Step.refl h)

/-- One program after another, where something else is known of the first. -/
theorem bind_of {P : α → Builder → Prop} (h : After x s fun r s' => Step roots s s' ∧ P r s')
    (hf : ∀ r s', Step roots s s' → P r s' → Steps roots (f r) s') : Steps roots (x >>= f) s := by
  refine After.bind h fun r s' hs' => ?_
  exact After.mono (hf r s' hs'.1 hs'.2) fun _ s'' h' => hs'.1.trans h'

theorem bind (h : Steps roots x s) (hf : ∀ r s', Step roots s s' → Steps roots (f r) s') :
    Steps roots (x >>= f) s :=
  bind_of (P := fun _ _ => True) (After.mono h fun _ _ h' => ⟨h', trivial⟩)
    fun r s' hs' _ => hf r s' hs'

theorem ite {c : Prop} [Decidable c] {y : BuildM α} (h : c → Steps roots x s)
    (h' : ¬c → Steps roots y s) : Steps roots (if c then x else y) s := After.ite h h'

end Steps

/-! ## Nodes, edges and targets -/

/-- A node is new, and nothing else is. -/
structure NodeAdded (spec : NodeSpec) (ordinal : ℕ) (discriminator : Option NodeId) (s : Builder)
    (id : NodeId) (s' : Builder) : Prop where
  id_eq : id = ⟨spec.kind, spec.source,
    (s.nodeOrdinals (spec.kind, spec.source, discriminator)).getD ordinal⟩
  ordinals : s'.nodeOrdinals = Function.update s.nodeOrdinals
    (spec.kind, spec.source, discriminator) (some (id.occurrence + 1))
  nodes : s'.nodes = s.nodes ++ [⟨id, spec.outcome, spec.hazard⟩]
  edges : s'.edges = s.edges
  edgeOrdinal : s'.edgeOrdinal = s.edgeOrdinal
  targets : s'.targets = s.targets
  same : SameExpressions s s'

theorem addNode_eq (spec : NodeSpec) (ordinal : ℕ) (discriminator : Option NodeId) (s : Builder) :
    After (addNode spec ordinal discriminator) s (NodeAdded spec ordinal discriminator s) :=
  ⟨rfl, rfl, rfl, rfl, rfl, rfl, rfl, rfl, rfl⟩

section

variable {spec : NodeSpec} {ordinal : ℕ} {d : Option NodeId} {id : NodeId}

theorem NodeAdded.nodeIds (h : NodeAdded spec ordinal d s id s') : s'.nodeIds = s.nodeIds ++ [id] := by
  rw [Builder.nodeIds, h.nodes, List.map_append]
  rfl

theorem NodeAdded.mem (h : NodeAdded spec ordinal d s id s') : id ∈ s'.nodeIds := by
  rw [h.nodeIds]
  exact List.mem_append_right _ (List.mem_singleton_self _)

/-- The counter of a key is above what it gave out. -/
theorem NodeAdded.lt_of_made (h : NodeAdded spec ordinal d s id s') {m : NodeId × Option NodeId}
    (hm : ∃ c, s.nodeOrdinals (m.1.kind, m.1.span, m.2) = some c ∧ m.1.occurrence < c)
    (hkey : (m.1.kind, m.1.span, m.2) = (spec.kind, spec.source, d)) :
    m.1.occurrence < id.occurrence := by
  obtain ⟨c, hc, hlt⟩ := hm
  rw [h.id_eq]
  rw [hkey] at hc
  simp only [hc, Option.getD_some]
  exact hlt

theorem Counted.node (h : Counted s) (hd : d.isSome = spec.kind.ofPredicate)
    (hknown : ∀ d', d = some d' → d' ∈ s.nodeIds) (hadded : NodeAdded spec ordinal d s id s') :
    Counted s' := by
  obtain ⟨made, hfst, hnodup, hcount⟩ := h.made
  have hid := hadded.id_eq
  refine ⟨?_, ?_, made ++ [(id, d)], ?_, ?_, ?_⟩
  · intro kind span d' hne
    rw [hadded.ordinals, Function.update_apply] at hne
    split at hne
    · rename_i heq
      simp only [Prod.mk.injEq] at heq
      rw [heq.1, heq.2.2]
      exact hd
    · exact h.keyed kind span d' hne
  · intro kind span d' hne
    rw [hadded.ordinals, Function.update_apply] at hne
    rw [hadded.nodeIds]
    apply List.mem_append_left
    split at hne
    · rename_i heq
      simp only [Prod.mk.injEq] at heq
      exact hknown d' heq.2.2.symm
    · exact h.known kind span d' hne
  · rw [List.map_append, hfst, hadded.nodeIds]
    rfl
  · rw [List.nodup_append']
    refine ⟨hnodup, List.nodup_singleton _, ?_⟩
    intro m hm hm'
    obtain rfl := List.mem_singleton.1 hm'
    have hlt := hadded.lt_of_made (hcount _ hm) (by rw [hid])
    exact Nat.lt_irrefl _ hlt
  · intro m hm
    rw [hadded.ordinals, Function.update_apply]
    split
    · rename_i heq
      refine ⟨_, rfl, ?_⟩
      rcases List.mem_append.1 hm with hm | hm
      · exact Nat.lt_succ_of_lt (hadded.lt_of_made (hcount m hm) heq)
      · rw [List.mem_singleton.1 hm]
        exact Nat.lt_succ_self _
    · rename_i hne
      rcases List.mem_append.1 hm with hm | hm
      · exact hcount m hm
      · rw [List.mem_singleton.1 hm, hid] at hne
        exact absurd rfl hne

/-- A node of another kind than outcomes and latches is new. -/
theorem Counted.fresh (h : Counted s) (hkind : spec.kind.ofPredicate = false)
    (hadded : NodeAdded spec ordinal none s id s') : id ∉ s.nodeIds := by
  intro hmem
  obtain ⟨made, hfst, -, hcount⟩ := h.made
  rw [← hfst] at hmem
  obtain ⟨m, hm, rfl⟩ := List.mem_map.1 hmem
  have hid := hadded.id_eq
  have hnone : m.2 = none := by
    obtain ⟨c, hc, -⟩ := hcount m hm
    have hkeyed := h.keyed _ _ _ (by rw [hc]; exact Option.some_ne_none c)
    rw [hid, hkind] at hkeyed
    simpa using hkeyed
  have hlt := hadded.lt_of_made (hcount m hm) (by rw [hid, hnone])
  exact Nat.lt_irrefl _ hlt

end

/-- Edges and targets are new, and nothing else is. -/
structure Linked (edges : List Edge) (targets : List Target) (s s' : Builder) : Prop where
  edges_eq : s'.edges = s.edges ++ edges
  targets_eq : s'.targets = s.targets ++ targets
  numbered : edges.map (fun edge => edge.id.ordinal) = List.range' s.edgeOrdinal edges.length
  edgeOrdinal : s'.edgeOrdinal = s.edgeOrdinal + edges.length
  nodes : s'.nodes = s.nodes
  nodeOrdinals : s'.nodeOrdinals = s.nodeOrdinals
  same : SameExpressions s s'

section

variable {edges edges' : List Edge} {targets targets' : List Target}

theorem Linked.refl (s : Builder) : Linked [] [] s s :=
  ⟨(List.append_nil _).symm, (List.append_nil _).symm, rfl, rfl, rfl, rfl, .refl s⟩

theorem Linked.trans (h : Linked edges targets s s') (h' : Linked edges' targets' s' s'') :
    Linked (edges ++ edges') (targets ++ targets') s s'' where
  edges_eq := by rw [h'.edges_eq, h.edges_eq, List.append_assoc]
  targets_eq := by rw [h'.targets_eq, h.targets_eq, List.append_assoc]
  numbered := by
    rw [List.map_append, h.numbered, h'.numbered, h.edgeOrdinal, List.length_append,
      ← List.range'_append, Nat.one_mul]
  edgeOrdinal := by rw [h'.edgeOrdinal, h.edgeOrdinal, List.length_append, Nat.add_assoc]
  nodes := h'.nodes.trans h.nodes
  nodeOrdinals := h'.nodeOrdinals.trans h.nodeOrdinals
  same := h.same.trans h'.same

theorem Linked.nodeIds (h : Linked edges targets s s') : s'.nodeIds = s.nodeIds := by
  rw [Builder.nodeIds, h.nodes, Builder.nodeIds]

theorem Linked.edgeOrdinals (h : Linked edges targets s s')
    (hs : s.edges.map (fun edge => edge.id.ordinal) = List.range s.edgeOrdinal) :
    s'.edges.map (fun edge => edge.id.ordinal) = List.range s'.edgeOrdinal := by
  rw [h.edges_eq, List.map_append, hs, h.numbered, h.edgeOrdinal, List.range_eq_range',
    List.range_eq_range', ← List.range'_append, Nat.one_mul, Nat.zero_add]

theorem Linked.counted (h : Linked edges targets s s') (hs : Counted s) : Counted s' := by
  obtain ⟨hkeyed, hknown, hmade⟩ := hs
  refine ⟨?_, ?_, ?_⟩
  · rw [h.nodeOrdinals]; exact hkeyed
  · rw [h.nodeOrdinals, h.nodeIds]; exact hknown
  · rw [h.nodeOrdinals, h.nodeIds]; exact hmade

theorem Valid.grows_of_linked (h : Valid roots s) (hlinked : Linked edges targets s s') :
    Grows roots s s' := by
  have hregistry := h.registry.of_same hlinked.same
  refine ⟨⟨hregistry.registry, hlinked.counted h.counted, hlinked.edgeOrdinals h.edgeOrdinals⟩,
    hregistry.grows, ?_, ?_⟩
  · exact hlinked.nodes ▸ List.prefix_rfl
  · rw [hlinked.edges_eq]; exact List.prefix_append _ _

/-- Edges between nodes that are there. -/
theorem Valid.step_of_linked (h : Valid roots s) (hlinked : Linked edges [] s s') :
    Step roots s s' :=
  ⟨h.grows_of_linked hlinked,
    Tidy.of_eq hlinked.nodes (by rw [hlinked.targets_eq, List.append_nil])⟩

theorem Valid.grows_of_node (h : Valid roots s) {spec : NodeSpec} {ordinal : ℕ} {d : Option NodeId}
    {id : NodeId} (hd : d.isSome = spec.kind.ofPredicate) (hknown : ∀ d', d = some d' → d' ∈ s.nodeIds)
    (hadded : NodeAdded spec ordinal d s id s') : Grows roots s s' := by
  have hregistry := h.registry.of_same hadded.same
  refine ⟨⟨hregistry.registry, h.counted.node hd hknown hadded, ?_⟩, hregistry.grows, ?_, ?_⟩
  · rw [hadded.edges, hadded.edgeOrdinal]; exact h.edgeOrdinals
  · rw [hadded.nodes]; exact List.prefix_append _ _
  · exact hadded.edges ▸ List.prefix_rfl

/-- A node with its targets and with edges to and from it. -/
theorem Valid.step_of_node (h : Valid roots s) {spec : NodeSpec} {ordinal : ℕ} {d : Option NodeId}
    {id : NodeId} (hd : d.isSome = spec.kind.ofPredicate) (hknown : ∀ d', d = some d' → d' ∈ s.nodeIds)
    (hadded : NodeAdded spec ordinal d s id s') (hlinked : Linked edges targets s' s'')
    (htargets : targets.map Target.id = Node.targetIds ⟨id, spec.outcome, spec.hazard⟩) :
    Step roots s s'' := by
  have hnode := h.grows_of_node hd hknown hadded
  refine ⟨hnode.trans (hnode.valid.grows_of_linked hlinked), [⟨id, spec.outcome, spec.hazard⟩],
    targets, ?_, ?_, ?_⟩
  · rw [hlinked.nodes, hadded.nodes]
  · rw [hlinked.targets_eq, hadded.targets]
  · rw [htargets, List.flatMap_singleton]

end

theorem addEdge_linked (source target : NodeId) (kind : EdgeKind) (guard : Option TypedExpression)
    (transfer : Option (List TransferOperation)) (isBackEdge : Bool) (s : Builder) :
    After (addEdge source target kind guard transfer isBackEdge) s fun _ s' =>
      Linked [⟨⟨kind, source, target, s.edgeOrdinal⟩, guard, transfer, isBackEdge⟩] [] s s' :=
  ⟨rfl, (List.append_nil _).symm, rfl, rfl, rfl, rfl, rfl, rfl, rfl⟩

theorem addTarget_linked (node : NodeId) (kind : TargetKind) (role : Option OutcomeRole) (s : Builder) :
    After (addTarget node kind role) s fun _ s' => Linked [] [⟨⟨kind, node⟩, role⟩] s s' :=
  ⟨(List.append_nil _).symm, rfl, rfl, rfl, rfl, rfl, rfl, rfl, rfl⟩

def controlEdge (point : FlowPoint) (target : NodeId) (ordinal : ℕ) (isBackEdge : Bool) : Edge :=
  ⟨⟨.controlTransfer, point.node, target, ordinal⟩, none, some point.summary, isBackEdge⟩

/-- The edges from several places to one node. -/
def connections (target : NodeId) : List FlowPoint → ℕ → List Edge
  | [], _ => []
  | point :: points, ordinal =>
    controlEdge point target ordinal false :: connections target points (ordinal + 1)

theorem connectPoints_linked (points : List FlowPoint) (target : NodeId) (s : Builder) :
    After (connectPoints points target) s fun _ s' =>
      Linked (connections target points s.edgeOrdinal) [] s s' := by
  induction points generalizing s with
  | nil => exact Linked.refl s
  | cons point points ih =>
    refine After.bind (addEdge_linked _ _ _ _ _ _ s) fun _ s₁ h₁ => ?_
    refine After.mono (ih s₁) fun _ s₂ h₂ => ?_
    rw [h₁.edgeOrdinal] at h₂
    exact h₁.trans h₂

end SemantiST.Stg
