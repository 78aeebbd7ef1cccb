import SemantiST.Stg.Steps

/-!
# What a statement adds to the graph

The parts of the builder, each by what it adds: nodes at the end of the list of nodes, links (edges
without their numbers) at the end of the list of edges, and the predicates for which outcomes and
latches were made.
-/

namespace SemantiST.Stg

open Lib Semantic

variable {s s' s'' : Builder}

/-! ## Additions -/

/-- An edge without its number. -/
structure Link where
  kind : EdgeKind
  source : NodeId
  target : NodeId
  guard : Option TypedExpression
  transfer : Option (List TransferOperation)

def Edge.link (edge : Edge) : Link :=
  ⟨edge.id.kind, edge.id.source, edge.id.target, edge.guard, edge.transfer⟩

def Builder.links (s : Builder) : List Link := s.edges.map Edge.link

def Link.control (point : FlowPoint) (target : NodeId) : Link :=
  ⟨.controlTransfer, point.node, target, none, some point.summary⟩

def Link.evaluation (source target : NodeId) (guard : TypedExpression) : Link :=
  ⟨.evaluation, source, target, some guard, none⟩

/-- An outcome or a latch was made at a place for a predicate. -/
def Marked (s : Builder) (span : Option SourceSpan) (predicate : NodeId) : Prop :=
  ∃ kind, s.nodeOrdinals (kind, span, some predicate) ≠ none

structure Adds (nodes : List Node) (links : List Link) (marks : List (SourceSpan × NodeId))
    (s s' : Builder) : Prop where
  nodes_eq : s'.nodes = s.nodes ++ nodes
  links_eq : s'.links = s.links ++ links
  marked : ∀ span predicate, Marked s' span predicate →
    Marked s span predicate ∨ ∃ mark ∈ marks, span = some mark.1 ∧ predicate = mark.2
  counted : (∀ mark ∈ marks, mark.2 ∈ s.nodeIds) → Counted s → Counted s'

theorem Counted.of_same (h : Counted s) (hsame : SameGraph s s') : Counted s' := by
  obtain ⟨hkeyed, hknown, hmade⟩ := h
  refine ⟨?_, ?_, ?_⟩
  · rw [hsame.nodeOrdinals]; exact hkeyed
  · simp only [Builder.nodeIds, hsame.nodeOrdinals, hsame.nodes]; exact hknown
  · simp only [Builder.nodeIds, hsame.nodeOrdinals, hsame.nodes]; exact hmade

section

variable {nodes nodes' : List Node} {links links' : List Link}
  {marks marks' : List (SourceSpan × NodeId)}

theorem Adds.nodeIds (h : Adds nodes links marks s s') :
    s'.nodeIds = s.nodeIds ++ nodes.map Node.id := by
  rw [Builder.nodeIds, h.nodes_eq, List.map_append, Builder.nodeIds]

theorem Adds.mem_nodeIds (h : Adds nodes links marks s s') {id : NodeId} (hid : id ∈ s.nodeIds) :
    id ∈ s'.nodeIds := by
  rw [h.nodeIds]
  exact List.mem_append_left _ hid

theorem Adds.trans (h : Adds nodes links marks s s') (h' : Adds nodes' links' marks' s' s'') :
    Adds (nodes ++ nodes') (links ++ links') (marks ++ marks') s s'' := by
  refine ⟨?_, ?_, fun span predicate hmarked => ?_, fun hknown hcounted => ?_⟩
  · rw [h'.nodes_eq, h.nodes_eq, List.append_assoc]
  · rw [h'.links_eq, h.links_eq, List.append_assoc]
  · rcases h'.marked span predicate hmarked with hmarked | ⟨mark, hmark, heq⟩
    · rcases h.marked span predicate hmarked with hmarked | ⟨mark, hmark, heq⟩
      · exact .inl hmarked
      · exact .inr ⟨mark, List.mem_append_left _ hmark, heq⟩
    · exact .inr ⟨mark, List.mem_append_right _ hmark, heq⟩
  · exact h'.counted (fun mark hmark => h.mem_nodeIds (hknown mark (List.mem_append_right _ hmark)))
      (h.counted (fun mark hmark => hknown mark (List.mem_append_left _ hmark)) hcounted)

theorem SameGraph.adds (h : SameGraph s s') : Adds [] [] [] s s' := by
  refine ⟨by rw [h.nodes, List.append_nil], ?_, fun span predicate hmarked => .inl ?_,
    fun _ hcounted => hcounted.of_same h⟩
  · rw [Builder.links, h.edges, List.append_nil, Builder.links]
  · rw [Marked, h.nodeOrdinals] at hmarked
    exact hmarked

theorem Linked.adds {edges : List Edge} {targets : List Target} (h : Linked edges targets s s') :
    Adds [] (edges.map Edge.link) [] s s' := by
  refine ⟨by rw [h.nodes, List.append_nil], ?_, fun span predicate hmarked => .inl ?_,
    fun _ hcounted => h.counted hcounted⟩
  · rw [Builder.links, h.edges_eq, List.map_append, Builder.links]
  · rw [Marked, h.nodeOrdinals] at hmarked
    exact hmarked

theorem NodeAdded.adds {spec : NodeSpec} {ordinal : ℕ} {id : NodeId}
    (hkind : spec.kind.ofPredicate = false) (h : NodeAdded spec ordinal none s id s') :
    Adds [⟨id, spec.outcome, spec.hazard⟩] [] [] s s' := by
  have hd : (none : Option NodeId).isSome = spec.kind.ofPredicate := hkind.symm
  refine ⟨h.nodes, ?_, fun span predicate hmarked => .inl ?_,
    fun _ hcounted => hcounted.node hd (by simp) h⟩
  · rw [Builder.links, h.edges, List.append_nil, Builder.links]
  · obtain ⟨kind, hne⟩ := hmarked
    rw [h.ordinals, Function.update_of_ne (by simp)] at hne
    exact ⟨kind, hne⟩

theorem NodeAdded.adds_marked {spec : NodeSpec} {ordinal : ℕ} {id predicate : NodeId}
    {span : SourceSpan} (hkind : spec.kind.ofPredicate = true)
    (h : NodeAdded spec ordinal (some predicate) s id s') (hspan : spec.source = some span) :
    Adds [⟨id, spec.outcome, spec.hazard⟩] [] [(span, predicate)] s s' := by
  have hd : (some predicate).isSome = spec.kind.ofPredicate := hkind.symm
  have hknown : (∀ mark ∈ [(span, predicate)], mark.2 ∈ s.nodeIds) →
      ∀ d', some predicate = some d' → d' ∈ s.nodeIds := by simp
  refine ⟨h.nodes, ?_, fun span' predicate' hmarked => ?_,
    fun hmarks hcounted => hcounted.node hd (hknown hmarks) h⟩
  · rw [Builder.links, h.edges, List.append_nil, Builder.links]
  · obtain ⟨kind, hne⟩ := hmarked
    rw [h.ordinals, Function.update_apply] at hne
    split at hne
    · rename_i heq
      simp only [Prod.mk.injEq, Option.some.injEq] at heq
      exact .inr ⟨_, List.mem_singleton_self _, heq.2.1.trans hspan, heq.2.2⟩
    · exact .inl ⟨kind, hne⟩

end

/-! ## Parts that leave the graph alone -/

theorem SameGraph.bind {α β : Type} {x : BuildM α} {f : α → BuildM β} {P : α → Prop} {Q : β → Prop}
    (h : After x s fun r s' => P r ∧ SameGraph s s')
    (hf : ∀ r s', P r → After (f r) s' fun r' s'' => Q r' ∧ SameGraph s' s'') :
    After (x >>= f) s fun r' s'' => Q r' ∧ SameGraph s s'' := by
  refine After.bind h fun r s' hr => ?_
  exact After.mono (hf r s' hr.1) fun _ _ h' => ⟨h'.1, hr.2.trans h'.2⟩

mutual

theorem registerExpression_same : ∀ (e : AstExpr) (s : Builder),
    After (registerExpression e) s fun _ s' => SameGraph s s'
  | ⟨id, span, kind, typeName, operands⟩, s => by
    rw [registerExpression]
    apply After.get_bind
    apply After.ite
    · intro _
      exact After.pure (SameGraph.refl s)
    · intro _
      refine After.bind (registerExpressions_same operands s) fun _ s₁ h₁ => ?_
      exact After.modify (h₁.trans ⟨rfl, rfl, rfl, rfl, rfl⟩)

theorem registerExpressions_same : ∀ (es : List AstExpr) (s : Builder),
    After (registerExpressions es) s fun _ s' => SameGraph s s'
  | [], s => After.pure (SameGraph.refl s)
  | e :: es, s => by
    rw [registerExpressions]
    refine After.bind (registerExpression_same e s) fun _ s₁ h₁ => ?_
    exact After.mono (registerExpressions_same es s₁) fun _ _ h₂ => h₁.trans h₂

end

/-- The expression is this one. -/
def Is (e : TypedExpression) (r : TypedExpression) : Prop := r = e

theorem is_self (e : TypedExpression) : Is e e := rfl

theorem expression_same (e : AstExpr) (s : Builder) :
    After (expression e) s fun r s' => Is (.source e) r ∧ SameGraph s s' := by
  refine After.bind (registerExpression_same e s) fun _ s₁ h₁ => ?_
  exact After.pure ⟨rfl, h₁⟩

theorem syntheticExpression_same (kind : ExpressionKind) (operands : List TypedExpression)
    (typeName : Text) (location : SourceSpan) (s : Builder) :
    After (syntheticExpression kind operands typeName location) s fun r s' =>
      (∃ id, r = .synthetic id kind typeName operands) ∧ SameGraph s s' :=
  ⟨⟨_, rfl⟩, rfl, rfl, rfl, rfl, rfl⟩

/-! ## Guards -/

/-- The expressions that the builder makes, up to their identifiers. -/
def IsBinary (operator typeName : Text) (left right : TypedExpression → Prop) (e : TypedExpression) :
    Prop :=
  ∃ id l r, e = .synthetic id (.binary operator) typeName [l, r] ∧ left l ∧ right r

def IsNot (operand : TypedExpression → Prop) (e : TypedExpression) : Prop :=
  ∃ id x, e = .synthetic id (.unary "NOT".toList) boolType [x] ∧ operand x

def IsLiteral (value : LiteralValue) (typeName : Text) (e : TypedExpression) : Prop :=
  ∃ id, e = .synthetic id (.literal value) typeName []

/-- The guard under which a FOR goes on. -/
def IsForCondition (counter stop : AstExpr) : Option AstExpr → TypedExpression → Prop
  | none => IsBinary "<=".toList boolType (Is (.source counter)) (Is (.source stop))
  | some step =>
    let positive := IsBinary ">".toList boolType (Is (.source step))
      (IsLiteral (.integer (decimal 0)) "DINT".toList)
    let le := IsBinary "<=".toList boolType (Is (.source counter)) (Is (.source stop))
    let ge := IsBinary ">=".toList boolType (Is (.source counter)) (Is (.source stop))
    IsBinary "OR".toList boolType (IsBinary "AND".toList boolType positive le)
      (IsBinary "AND".toList boolType (IsNot positive) ge)

/-- The guard of a label of a CASE. -/
def IsCaseGuard (selector : TypedExpression) (label : AstExpr) (e : TypedExpression) : Prop :=
  match label.kind, label.operands with
  | .range, [low, high] =>
    IsBinary "AND".toList boolType (IsBinary ">=".toList boolType (Is selector) (Is (.source low)))
      (IsBinary "<=".toList boolType (Is selector) (Is (.source high))) e
  | _, _ => IsBinary "=".toList boolType (Is selector) (Is (.source label)) e

/-- The disjunction of guards, the first of which is known. -/
def IsOr (combined : TypedExpression → Prop) : List TypedExpression → TypedExpression → Prop
  | [] => combined
  | guard :: guards => IsOr (IsBinary "OR".toList boolType combined (Is guard)) guards

/-- The guard under which no label of a CASE is taken. -/
def IsNor : List TypedExpression → TypedExpression → Prop
  | [] => IsLiteral (.boolean true) boolType
  | guard :: guards => IsNot (IsOr (Is guard) guards)

/-- The increment of the counter of a FOR. -/
def IsIncrement (counter : AstExpr) : Option AstExpr → TypedExpression → Prop
  | none => IsBinary "+".toList counter.typeName (Is (.source counter))
      (IsLiteral (.integer (decimal 1)) "DINT".toList)
  | some step => IsBinary "+".toList counter.typeName (Is (.source counter)) (Is (.source step))

section

variable (location : SourceSpan)

theorem syntheticBinary_same (operator typeName : Text) {left right : TypedExpression}
    {L R : TypedExpression → Prop} (hleft : L left) (hright : R right) (s : Builder) :
    After (syntheticBinary operator left right typeName location) s fun r s' =>
      IsBinary operator typeName L R r ∧ SameGraph s s' := by
  refine After.mono (syntheticExpression_same _ _ _ _ s) fun r s' h => ?_
  obtain ⟨⟨id, rfl⟩, hsame⟩ := h
  exact ⟨⟨id, left, right, rfl, hleft, hright⟩, hsame⟩

theorem syntheticNot_same {operand : TypedExpression} {P : TypedExpression → Prop}
    (hoperand : P operand) (s : Builder) :
    After (syntheticNot operand location) s fun r s' => IsNot P r ∧ SameGraph s s' := by
  refine After.mono (syntheticExpression_same _ _ _ _ s) fun r s' h => ?_
  obtain ⟨⟨id, rfl⟩, hsame⟩ := h
  exact ⟨⟨id, operand, rfl, hoperand⟩, hsame⟩

theorem syntheticInteger_same (value : ℕ) (s : Builder) :
    After (syntheticInteger value location) s fun r s' =>
      IsLiteral (.integer (decimal value)) "DINT".toList r ∧ SameGraph s s' :=
  syntheticExpression_same _ _ _ _ s

theorem syntheticOr_same (guards : List TypedExpression) {combined : TypedExpression}
    {P : TypedExpression → Prop} (hcombined : P combined) (s : Builder) :
    After (syntheticOr combined location guards) s fun r s' => IsOr P guards r ∧ SameGraph s s' := by
  induction guards generalizing s combined P with
  | nil => exact After.pure ⟨hcombined, SameGraph.refl s⟩
  | cons guard guards ih =>
    refine SameGraph.bind (syntheticBinary_same location _ _ hcombined (is_self guard) s) fun r s₁ hr => ?_
    exact ih hr s₁

theorem syntheticNor_same (guards : List TypedExpression) (s : Builder) :
    After (syntheticNor guards location) s fun r s' => IsNor guards r ∧ SameGraph s s' := by
  cases guards with
  | nil => exact syntheticExpression_same _ _ _ _ s
  | cons guard guards =>
    refine SameGraph.bind (syntheticOr_same location guards (is_self guard) s) fun r s₁ hr => ?_
    exact syntheticNot_same location hr s₁

end

theorem forConditionExpression_same (counter stop : AstExpr) (byStep : Option AstExpr)
    (s : Builder) :
    After (forConditionExpression counter stop byStep) s fun r s' =>
      IsForCondition counter stop byStep r ∧ SameGraph s s' := by
  refine SameGraph.bind (expression_same counter s) fun counter' s₁ hcounter => ?_
  refine SameGraph.bind (expression_same stop s₁) fun stop' s₂ hstop => ?_
  cases byStep with
  | none => exact syntheticBinary_same _ _ _ hcounter hstop s₂
  | some step =>
    refine SameGraph.bind (expression_same step s₂) fun step' s₃ hstep => ?_
    refine SameGraph.bind (syntheticInteger_same stop.span 0 s₃) fun zero s₄ hzero => ?_
    refine SameGraph.bind (syntheticBinary_same _ _ _ hstep hzero s₄) fun positive s₅ hpositive => ?_
    refine SameGraph.bind (syntheticBinary_same _ _ _ hcounter hstop s₅) fun le s₆ hle => ?_
    refine SameGraph.bind (syntheticBinary_same _ _ _ hcounter hstop s₆) fun ge s₇ hge => ?_
    refine SameGraph.bind (syntheticBinary_same _ _ _ hpositive hle s₇) fun _ s₈ hpath => ?_
    refine SameGraph.bind (syntheticNot_same _ hpositive s₈) fun _ s₉ hnot => ?_
    refine SameGraph.bind (syntheticBinary_same _ _ _ hnot hge s₉) fun _ s₁₀ hpath' => ?_
    exact syntheticBinary_same _ _ _ hpath hpath' s₁₀

theorem caseGuardExpression_same (selector : TypedExpression) (label : AstExpr) (s : Builder) :
    After (caseGuardExpression selector label) s fun r s' =>
      IsCaseGuard selector label r ∧ SameGraph s s' := by
  unfold caseGuardExpression
  split
  · rename_i low high hkind hoperands
    refine SameGraph.bind (syntheticBinary_same _ _ _ (is_self selector) (is_self _) s)
      fun ge s₁ hge => ?_
    refine SameGraph.bind (syntheticBinary_same _ _ _ (is_self selector) (is_self _) s₁)
      fun le s₂ hle => ?_
    simp only [IsCaseGuard, hkind, hoperands]
    exact syntheticBinary_same _ _ _ hge hle s₂
  · rename_i hother
    refine After.mono (syntheticBinary_same _ _ _ (is_self selector) (is_self _) s)
      fun r s' h => ⟨?_, h.2⟩
    unfold IsCaseGuard
    split
    · rename_i low high hkind hoperands
      exact absurd hoperands (hother low high hkind)
    · exact h.1

/-! ## Hazards -/

theorem hazardsReachable_same (a : Annotations) (root : AstExpr) (s : Builder) :
    After (hazardsReachable a root) s fun _ s' => SameGraph s s' := ⟨rfl, rfl, rfl, rfl, rfl⟩

theorem hazardsOfRoots_same (a : Annotations) (es : List AstExpr) (s : Builder) :
    After (hazardsOfRoots a es) s fun _ s' => SameGraph s s' := by
  induction es generalizing s with
  | nil => exact After.pure (SameGraph.refl s)
  | cons e es ih =>
    refine After.bind (hazardsReachable_same a e s) fun _ s₁ h₁ => ?_
    refine After.bind (ih s₁) fun _ s₂ h₂ => ?_
    exact After.pure (h₁.trans h₂)

theorem reportHazard_same (candidate : HazardCandidate) (s : Builder) :
    After (reportHazard candidate) s fun _ s' => SameGraph s s' := by
  apply After.get_bind
  apply After.ite
  · intro _
    exact After.pure (SameGraph.refl s)
  · intro _
    exact ⟨rfl, rfl, rfl, rfl, rfl⟩

/-- Hazards, each with a node of its own, on the way from the points to the points after them. -/
inductive Splice : List FlowPoint → List HazardCandidate → List FlowPoint → Builder → Builder → Prop
  | nil (points : List FlowPoint) (s : Builder) : Splice points [] points s s
  | cons {points points' : List FlowPoint} {hazard : HazardCandidate} {hazards : List HazardCandidate}
      {node : NodeId} {s s₁ s' : Builder} (hkind : node.kind = .hazard)
      (hadds : Adds [⟨node, none, some hazard.key⟩] (points.map (Link.control · node)) [] s s₁)
      (hrest : Splice [⟨node, []⟩] hazards points' s₁ s') : Splice points (hazard :: hazards) points' s s'

theorem connections_link (target : NodeId) (points : List FlowPoint) (ordinal : ℕ) :
    (connections target points ordinal).map Edge.link = points.map (Link.control · target) := by
  induction points generalizing ordinal with
  | nil => rfl
  | cons point points ih =>
    rw [connections, List.map_cons, List.map_cons, ih]
    rfl

theorem connectPoints_adds (points : List FlowPoint) (target : NodeId) (s : Builder) :
    After (connectPoints points target) s fun _ s' =>
      Adds [] (points.map (Link.control · target)) [] s s' ∧ s'.nodeOrdinals = s.nodeOrdinals := by
  refine After.mono (connectPoints_linked points target s) fun _ s' h => ⟨?_, h.nodeOrdinals⟩
  have hadds := h.adds
  rw [connections_link] at hadds
  exact hadds

theorem addTarget_adds (node : NodeId) (kind : TargetKind) (role : Option OutcomeRole) (s : Builder) :
    After (addTarget node kind role) s fun _ s' =>
      Adds [] [] [] s s' ∧ s'.nodeOrdinals = s.nodeOrdinals :=
  After.mono (addTarget_linked node kind role s) fun _ _ h => ⟨h.adds, h.nodeOrdinals⟩

theorem addEdge_adds (source target : NodeId) (kind : EdgeKind) (guard : Option TypedExpression)
    (transfer : Option (List TransferOperation)) (isBackEdge : Bool) (s : Builder) :
    After (addEdge source target kind guard transfer isBackEdge) s fun _ s' =>
      Adds [] [⟨kind, source, target, guard, transfer⟩] [] s s' ∧
        s'.nodeOrdinals = s.nodeOrdinals :=
  After.mono (addEdge_linked source target kind guard transfer isBackEdge s)
    fun _ _ h => ⟨h.adds, h.nodeOrdinals⟩

theorem insertHazard_adds (points : List FlowPoint) (hazard : HazardCandidate) (s : Builder) :
    After (insertHazard points hazard) s fun points' s' => ∃ node : NodeId,
      points' = [⟨node, []⟩] ∧ node.kind = .hazard ∧
      Adds [⟨node, none, some hazard.key⟩] (points.map (Link.control · node)) [] s s' := by
  refine After.bind (addNode_eq _ _ _ s) fun node s₁ h₁ => ?_
  have hkind : node.kind = .hazard := by rw [h₁.id_eq]
  refine After.bind (connectPoints_adds points node s₁) fun _ s₂ h₂ => ?_
  have hadds := (h₁.adds rfl).trans h₂.1
  apply After.ite
  · intro _
    refine After.bind (addTarget_adds node .externalOutput none s₂) fun _ s₃ h₃ => ?_
    exact After.pure ⟨node, rfl, hkind, by simpa using hadds.trans h₃.1⟩
  · intro _
    refine After.bind (addTarget_adds node .hazardReach none s₂) fun _ s₃ h₃ => ?_
    refine After.bind (addTarget_adds node .hazardViolation none s₃) fun _ s₄ h₄ => ?_
    exact After.pure ⟨node, rfl, hkind, by simpa using (hadds.trans h₃.1).trans h₄.1⟩

theorem insertHazards_splice (hazards : List HazardCandidate) (points : List FlowPoint)
    (s : Builder) :
    After (insertHazards points hazards) s fun points' s' => Splice points hazards points' s s' := by
  induction hazards generalizing s points with
  | nil => exact After.pure (Splice.nil points s)
  | cons hazard hazards ih =>
    refine After.bind (insertHazard_adds points hazard s) fun points₁ s₁ h₁ => ?_
    obtain ⟨node, rfl, hkind, hadds⟩ := h₁
    exact After.mono (ih _ s₁) fun _ _ hrest => Splice.cons hkind hadds hrest

/-- The hazards of a condition stand before it. -/
def Conditioned (a : Annotations) (condition : AstExpr) (points : List FlowPoint) (s : Builder)
    (points' : List FlowPoint) (s' : Builder) : Prop :=
  ∃ s₁ hazards s₂, SameGraph s s₁ ∧ (hazardsReachable a condition).run s₁ = (hazards, s₂) ∧
    SameGraph s₁ s₂ ∧ Splice points hazards points' s₂ s'

theorem conditionHazards_spec (a : Annotations) (points : List FlowPoint) (condition : AstExpr)
    (s : Builder) :
    After (conditionHazards a points condition) s (Conditioned a condition points s) := by
  refine After.bind (expression_same condition s) fun _ s₁ h₁ => ?_
  refine After.bind (After.ran _ s₁) fun hazards s₂ h₂ => ?_
  have hsame := (hazardsReachable_same a condition s₁).run
  rw [h₂] at hsame
  exact After.mono (insertHazards_splice hazards points s₂)
    fun _ _ hsplice => ⟨s₁, hazards, s₂, h₁.2, h₂, hsame, hsplice⟩

end SemantiST.Stg
