import SemantiST.Stg.Shapes

/-!
# What each kind of statement adds to the graph

The nodes, links and marks of each control statement, and where its bodies are built in between.
-/

namespace SemantiST.Stg

open Lib Semantic

variable {s s' : Builder}

/-! ## Predicates and their outcomes -/

/-- No outcome or latch was made for the predicate. -/
def Unused (s : Builder) (predicate : NodeId) : Prop :=
  ∀ kind span, s.nodeOrdinals (kind, span, some predicate) = none

theorem Unused.of_eq {predicate : NodeId} (h : Unused s predicate)
    (heq : s'.nodeOrdinals = s.nodeOrdinals) : Unused s' predicate := by
  intro kind span
  rw [heq]
  exact h kind span

theorem addPredicate_adds (condition : AstExpr) (kind : PredicateKind) (ordinal : ℕ) (s : Builder) :
    After (addPredicate condition kind ordinal) s fun id s' =>
      Adds [⟨id, none, none⟩] [] [] s s' ∧ id.kind = .predicate kind ∧
        (Counted s → Unused s' id) := by
  refine After.bind (expression_same condition s) fun _ s₁ h₁ => ?_
  refine After.mono (addNode_eq _ _ _ s₁) fun id s₂ h₂ => ?_
  refine ⟨h₁.2.adds.trans (h₂.adds rfl), by rw [h₂.id_eq], fun hcounted kind' span => ?_⟩
  have hcounted₁ := hcounted.of_same h₁.2
  rw [h₂.ordinals, Function.update_of_ne (by simp)]
  by_contra hne
  exact hcounted₁.fresh rfl h₂ (hcounted₁.known kind' span id hne)

/-- An outcome or a latch, with its target. -/
theorem addMarked_adds {spec : NodeSpec} {ordinal : ℕ} {predicate : NodeId} {span : SourceSpan}
    {kind : TargetKind} {role : Option OutcomeRole} (hmarked : spec.kind.ofPredicate = true)
    (hspan : spec.source = some span) (s : Builder) :
    After (do
      let node ← addNode spec ordinal (some predicate)
      addTarget node kind role
      return node) s fun id s' =>
        Adds [⟨id, spec.outcome, spec.hazard⟩] [] [(span, predicate)] s s' ∧ id.kind = spec.kind ∧
          (Unused s predicate → id = ⟨spec.kind, some span, ordinal⟩) := by
  refine After.bind (addNode_eq _ _ _ s) fun id s₁ h₁ => ?_
  refine After.bind (addTarget_adds id kind role s₁) fun _ s₂ h₂ => ?_
  refine After.pure ⟨by simpa using (h₁.adds_marked hmarked hspan).trans h₂.1, by rw [h₁.id_eq], ?_⟩
  intro hunused
  rw [h₁.id_eq, hunused, hspan]
  rfl

/-- A node that is no hazard. -/
def Plain (id : NodeId) (node : Node) : Prop := node.id = id ∧ node.hazard = none

theorem addOutcome_adds (predicate : NodeId) (span : SourceSpan) (role : OutcomeRole)
    (value : OutcomeValue) (ordinal : ℕ) (s : Builder) :
    After (addOutcome predicate span role value ordinal) s fun id s' =>
      ∃ node, Plain id node ∧ Adds [node] [] [(span, predicate)] s s' ∧ id.kind = .outcome ∧
        (Unused s predicate → id = ⟨.outcome, some span, ordinal⟩) :=
  After.mono (addMarked_adds rfl rfl s) fun _ _ h => ⟨_, ⟨rfl, rfl⟩, h⟩

theorem addStructuralLoopEnter_adds (span : SourceSpan) (predicate : NodeId) (s : Builder) :
    After (addStructuralLoopEnter span predicate) s fun id s' =>
      ∃ node, Plain id node ∧ Adds [node] [] [(span, predicate)] s s' ∧ id.kind = .outcome ∧
        (Unused s predicate → id = ⟨.outcome, some span, 0⟩) :=
  After.mono (addMarked_adds rfl rfl s) fun _ _ h => ⟨_, ⟨rfl, rfl⟩, h⟩

theorem addStructuralElse_adds (span : SourceSpan) (predicate : NodeId) (s : Builder) :
    After (addStructuralElse span predicate) s fun id s' =>
      ∃ node, Plain id node ∧ Adds [node] [] [(span, predicate)] s s' ∧ id.kind = .outcome :=
  After.mono (addMarked_adds rfl rfl s) fun _ _ h => ⟨_, ⟨rfl, rfl⟩, h.1, h.2.1⟩

theorem addLoopBack_adds (span : SourceSpan) (predicate : NodeId) (s : Builder) :
    After (addLoopBack span predicate) s fun id s' =>
      ∃ node, Plain id node ∧ Adds [node] [] [(span, predicate)] s s' ∧ id.kind = .loopLatch :=
  After.mono (addMarked_adds rfl rfl s) fun _ _ h => ⟨_, ⟨rfl, rfl⟩, h.1, h.2.1⟩

/-- The links of the two guards of a predicate. -/
def Branches (predicate whenTrue whenFalse : NodeId) (guard : TypedExpression) (links : List Link) :
    Prop :=
  ∃ negated, IsNot (Is guard) negated ∧
    links = [.evaluation predicate whenTrue guard, .evaluation predicate whenFalse negated]

theorem addBranches_adds (predicate whenTrue whenFalse : NodeId) (guard : TypedExpression)
    (location : SourceSpan) (s : Builder) :
    After (addBranches predicate whenTrue whenFalse guard location) s fun _ s' =>
      ∃ links, Branches predicate whenTrue whenFalse guard links ∧ Adds [] links [] s s' := by
  refine After.bind (syntheticNot_same location (is_self guard) s) fun negated s₁ h₁ => ?_
  refine After.bind (addEdge_adds _ _ _ _ _ _ s₁) fun _ s₂ h₂ => ?_
  refine After.mono (addEdge_adds _ _ _ _ _ _ s₂) fun _ s₃ h₃ => ?_
  exact ⟨_, ⟨negated, h₁.1, rfl⟩, by
    simpa [Link.evaluation] using (h₁.2.adds.trans h₂.1).trans h₃.1⟩

/-- A predicate with two outcomes, after some points. -/
structure Forked (span : SourceSpan) (points : List FlowPoint) (guard : TypedExpression)
    (s : Builder) (predicate whenTrue whenFalse : NodeId) (s' : Builder) : Prop where
  adds : ∃ nodes branches, List.Forall₂ Plain [predicate, whenTrue, whenFalse] nodes ∧
    Branches predicate whenTrue whenFalse guard branches ∧
    Adds nodes (points.map (Link.control · predicate) ++ branches)
      [(span, predicate), (span, predicate)] s s'
  kind : ∃ kind, predicate.kind = .predicate kind
  whenTrue_kind : whenTrue.kind = .outcome
  whenFalse_kind : whenFalse.kind = .outcome
  first : Counted s → whenTrue = ⟨.outcome, some span, 0⟩
  counted : Counted s → Counted s'

theorem fork_spec {β : Type} {points : List FlowPoint} {condition : AstExpr} {kind : PredicateKind}
    {ordinal : ℕ} {role role' : OutcomeRole} {value value' : OutcomeValue}
    {guardOf : BuildM TypedExpression} {G : TypedExpression → Prop}
    (hguard : ∀ s, After guardOf s fun r s' => G r ∧ SameGraph s s')
    {f : NodeId → NodeId → NodeId → BuildM β} {R : β → Builder → Prop}
    (hf : ∀ predicate whenTrue whenFalse guard s', G guard →
      Forked condition.span points guard s predicate whenTrue whenFalse s' →
      After (f predicate whenTrue whenFalse) s' R) :
    After (do
      let predicate ← addPredicate condition kind ordinal
      connectPoints points predicate
      let whenTrue ← addOutcome predicate condition.span role value 0
      let whenFalse ← addOutcome predicate condition.span role' value' 1
      let guard ← guardOf
      addBranches predicate whenTrue whenFalse guard condition.span
      f predicate whenTrue whenFalse) s R := by
  refine After.bind (addPredicate_adds condition kind ordinal s) fun predicate s₁ h₁ => ?_
  refine After.bind (connectPoints_adds points predicate s₁) fun _ s₂ h₂ => ?_
  refine After.bind (addOutcome_adds _ _ _ _ _ s₂) fun whenTrue s₃ h₃ => ?_
  obtain ⟨node, hplain, hadds, hkind, hfirst⟩ := h₃
  refine After.bind (addOutcome_adds _ _ _ _ _ s₃) fun whenFalse s₄ h₄ => ?_
  obtain ⟨node', hplain', hadds', hkind', -⟩ := h₄
  refine After.bind (hguard s₄) fun guard s₅ h₅ => ?_
  refine After.bind (addBranches_adds predicate whenTrue whenFalse guard _ s₅) fun _ s₆ h₆ => ?_
  obtain ⟨branches, hbranches, hadds''⟩ := h₆
  have hrest := (((h₂.1.trans hadds).trans hadds').trans h₅.2.adds).trans hadds''
  have hall := h₁.1.trans hrest
  apply hf predicate whenTrue whenFalse guard s₆ h₅.1
  refine ⟨⟨_, branches, .cons ⟨rfl, rfl⟩ (.cons hplain (.cons hplain' .nil)), hbranches,
    by simpa using hall⟩, ⟨kind, h₁.2.1⟩, hkind, hkind', fun hcounted => ?_, fun hcounted => ?_⟩
  · exact hfirst ((h₁.2.2 hcounted).of_eq h₂.2)
  · have hpredicate : predicate ∈ s₁.nodeIds := by simp [h₁.1.nodeIds]
    exact hrest.counted (by simpa using hpredicate) (h₁.1.counted (by simp) hcounted)

/-! ## Simple statements and jumps -/

theorem summarizeStatement_same (a : Annotations) (statement : Statement) (s : Builder) :
    After (summarizeStatement a statement) s fun _ s' => SameGraph s s' := by
  have hwhen : ∀ {β : Type} {c : Prop} [Decidable c] {candidate : HazardCandidate}
      {f : List HazardCandidate → BuildM β} {s : Builder},
      (∀ hazards s', After (f hazards) s' fun _ s'' => SameGraph s' s'') →
      After (if c then reportHazard candidate >>= f else f []) s fun _ s' => SameGraph s s' := by
    intro β c _ candidate f s hf
    apply After.ite
    · intro _
      refine After.bind (reportHazard_same candidate s) fun hazards s₁ h₁ => ?_
      exact After.mono (hf hazards s₁) fun _ _ h₂ => h₁.trans h₂
    · intro _
      exact hf [] s
  cases statement with
  | assignment span left right =>
    refine After.bind (expression_same left s) fun target s₁ h₁ => ?_
    refine After.bind (expression_same right s₁) fun value s₂ h₂ => ?_
    refine After.bind (hazardsOfRoots_same a _ s₂) fun hazards s₃ h₃ => ?_
    have h₀₃ := (h₁.2.trans h₂.2).trans h₃
    refine After.mono (hwhen (s := s₃) fun output s₄ => hwhen fun narrowing s₅ =>
      After.pure (SameGraph.refl s₅)) fun _ _ h₄ => h₀₃.trans h₄
  | call call =>
    refine After.bind (expression_same call s) fun _ s₁ h₁ => ?_
    refine After.bind (hazardsOfRoots_same a _ s₁) fun _ s₂ h₂ => ?_
    exact After.pure (h₁.2.trans h₂)
  | _ => exact After.pure (SameGraph.refl s)

/-- The points after a statement that is no control statement. -/
def afterOperation (operation : Option TransferOperation) (points : List FlowPoint) :
    List FlowPoint :=
  match operation with
  | none => points
  | some operation => points.map (FlowPoint.applyOperation operation)

theorem buildSimple_spec (a : Annotations) (statement : Statement) (points : List FlowPoint)
    (s : Builder) :
    After (buildSimple a statement points) s fun ends s' => ∃ operation hazards s₁ points',
      (summarizeStatement a statement).run s = ((operation, hazards), s₁) ∧ SameGraph s s₁ ∧
      Splice points hazards points' s₁ s' ∧ ends = afterOperation operation points' := by
  refine After.bind (After.ran _ s) fun result s₁ h₁ => ?_
  have hsame := (summarizeStatement_same a statement s).run
  rw [h₁] at hsame
  refine After.bind (insertHazards_splice result.2 points s₁) fun points' s₂ h₂ => ?_
  obtain ⟨operation, hazards⟩ := result
  cases operation with
  | none => exact After.pure ⟨none, hazards, s₁, points', h₁, hsame, h₂, rfl⟩
  | some operation => exact After.pure ⟨some operation, hazards, s₁, points', h₁, hsame, h₂, rfl⟩

/-- The node of a jump, after some points and before its target. -/
def Jumped (points : List FlowPoint) (target : NodeId) (s s' : Builder) : Prop :=
  ∃ id node, Plain id node ∧ id.kind = .loopControl ∧
    Adds [node] (points.map (Link.control · id) ++ [Link.control ⟨id, []⟩ target]) [] s s'

theorem addLoopControl_spec (points : List FlowPoint) (span : SourceSpan) (role : OutcomeRole)
    (target : NodeId) (isBackEdge : Bool) (s : Builder) :
    After (addLoopControl points span role target isBackEdge) s fun _ s' =>
      Jumped points target s s' := by
  refine After.bind (addNode_eq _ _ _ s) fun id s₁ h₁ => ?_
  refine After.bind (connectPoints_adds points id s₁) fun _ s₂ h₂ => ?_
  refine After.bind (addTarget_adds _ _ _ s₂) fun _ s₃ h₃ => ?_
  refine After.mono (addEdge_adds _ _ _ _ _ _ s₃) fun _ s₄ h₄ => ?_
  have hall := (((h₁.adds rfl).trans h₂.1).trans h₃.1).trans h₄.1
  exact ⟨id, _, ⟨rfl, rfl⟩, by rw [h₁.id_eq], by simpa [Link.control] using hall⟩

theorem addDiagnostic_same (code : Text) (s : Builder) :
    After (addDiagnostic code) s fun _ s' => SameGraph s s' := ⟨rfl, rfl, rfl, rfl, rfl⟩

/-! ## Control statements -/

section

variable (a : Annotations) (returnTarget : NodeId) (loop : Option LoopContext)

/-- The latch of a loop and the links to and from it. -/
def Latched (span : SourceSpan) (predicate latch : NodeId) (links : List Link) (s s' : Builder) : Prop :=
  ∃ node, Plain latch node ∧ latch.kind = .loopLatch ∧ Adds [node] links [(span, predicate)] s s'

theorem whileLoop_spec (span : SourceSpan) (condition : AstExpr) (body : List Statement)
    (points : List FlowPoint) (s : Builder) :
    After (buildStatement a returnTarget loop (.whileLoop span condition body) points) s fun ends s' =>
      ∃ points' s₁ predicate enter exit s₂ bodyEnds s₃ latch,
        Conditioned a condition points s points' s₁ ∧
        Forked condition.span points' (.source condition) s₁ predicate enter exit s₂ ∧
        (buildSequence a returnTarget (some ⟨predicate, exit⟩) body [⟨enter, []⟩]).run s₂ =
          (bodyEnds, s₃) ∧
        Latched span predicate latch
          (bodyEnds.map (Link.control · latch) ++ [Link.control ⟨latch, []⟩ predicate]) s₃ s' ∧
        ends = [⟨exit, []⟩] := by
  refine After.bind (conditionHazards_spec a points condition s) fun points' s₁ h₁ => ?_
  refine fork_spec (expression_same condition) fun predicate enter exit guard s₂ hguard h₂ => ?_
  obtain rfl := hguard
  refine After.bind (After.ran _ s₂) fun bodyEnds s₃ h₃ => ?_
  refine After.bind (addLoopBack_adds span predicate s₃) fun latch s₄ h₄ => ?_
  obtain ⟨node, hplain, hadds, hkind⟩ := h₄
  refine After.bind (connectPoints_adds bodyEnds latch s₄) fun _ s₅ h₅ => ?_
  refine After.bind (addEdge_adds _ _ _ _ _ _ s₅) fun _ s₆ h₆ => ?_
  refine After.pure ⟨points', s₁, predicate, enter, exit, s₂, bodyEnds, s₃, latch, h₁, h₂, h₃, ?_, rfl⟩
  exact ⟨node, hplain, hkind, by simpa [Link.control] using (hadds.trans h₅.1).trans h₆.1⟩

theorem forLoop_spec (span : SourceSpan) (counter start stop : AstExpr) (byStep : Option AstExpr)
    (body : List Statement) (points : List FlowPoint) (s : Builder) :
    After (buildStatement a returnTarget loop (.forLoop span counter start stop byStep body) points) s
      fun ends s' => ∃ s₀ points' s₁ predicate enter exit guard s₂ latch s₃ bodyEnds s₄ increment,
        SameGraph s s₀ ∧
        Conditioned a stop (points.map (FlowPoint.applyOperation (.assign counter
          (expressionVariableName counter) (.source start) (a.conversionFor counter start))))
          s₀ points' s₁ ∧
        IsForCondition counter stop byStep guard ∧
        Forked stop.span points' guard s₁ predicate enter exit s₂ ∧
        Latched span predicate latch [] s₂ s₃ ∧
        (buildSequence a returnTarget (some ⟨latch, exit⟩) body [⟨enter, []⟩]).run s₃ =
          (bodyEnds, s₄) ∧
        IsIncrement counter byStep increment ∧
        Adds [] (bodyEnds.map (Link.control · latch) ++ [Link.control ⟨latch,
          [.assign counter (expressionVariableName counter) increment none]⟩ predicate]) [] s₄ s' ∧
        ends = [⟨exit, []⟩] := by
  refine After.bind (expression_same counter s) fun counterId s' hcounter => ?_
  refine After.bind (expression_same start s') fun startId s₀ hstart => ?_
  obtain rfl := hcounter.1
  obtain rfl := hstart.1
  refine After.bind (conditionHazards_spec a _ stop s₀) fun points' s₁ h₁ => ?_
  refine fork_spec (forConditionExpression_same counter stop byStep)
    fun predicate enter exit guard s₂ hguard h₂ => ?_
  refine After.bind (addLoopBack_adds span predicate s₂) fun latch s₃ h₃ => ?_
  obtain ⟨node, hplain, hadds, hkind⟩ := h₃
  refine After.bind (After.ran _ s₃) fun bodyEnds s₄ h₄ => ?_
  refine After.bind (connectPoints_adds bodyEnds latch s₄) fun _ s₅ h₅ => ?_
  cases byStep with
  | none =>
    refine After.bind (syntheticInteger_same stop.span 1 s₅) fun step s₆ hstep => ?_
    refine After.bind (syntheticBinary_same counter.span _ _ (is_self (.source counter)) hstep.1 s₆)
      fun increment s₇ h₇ => ?_
    refine After.bind (addEdge_adds _ _ _ _ _ _ s₇) fun _ s₈ h₈ => ?_
    refine After.pure ⟨s₀, points', s₁, predicate, enter, exit, guard, s₂, latch, s₃, bodyEnds, s₄,
      increment, hcounter.2.trans hstart.2, h₁, hguard, h₂, ⟨node, hplain, hkind, hadds⟩, h₄, h₇.1, ?_,
      rfl⟩
    simpa [Link.control] using ((h₅.1.trans hstep.2.adds).trans h₇.2.adds).trans h₈.1
  | some step =>
    refine After.bind (expression_same step s₅) fun step' s₆ hstep => ?_
    refine After.bind (syntheticBinary_same counter.span _ _ (is_self (.source counter)) hstep.1 s₆)
      fun increment s₇ h₇ => ?_
    refine After.bind (addEdge_adds _ _ _ _ _ _ s₇) fun _ s₈ h₈ => ?_
    refine After.pure ⟨s₀, points', s₁, predicate, enter, exit, guard, s₂, latch, s₃, bodyEnds, s₄,
      increment, hcounter.2.trans hstart.2, h₁, hguard, h₂, ⟨node, hplain, hkind, hadds⟩, h₄, h₇.1, ?_,
      rfl⟩
    simpa [Link.control] using ((h₅.1.trans hstep.2.adds).trans h₇.2.adds).trans h₈.1

/-- The nodes of a REPEAT, made before its body: control enters it at a node of its own. -/
structure Repeated (span : SourceSpan) (condition : AstExpr) (points : List FlowPoint)
    (s : Builder) (predicate enter exit latch : NodeId) (s' : Builder) : Prop where
  adds : ∃ again nodes branches, List.Forall₂ Plain [predicate, enter, exit, again, latch] nodes ∧
    again.kind = .outcome ∧
    Branches predicate exit again (.source condition) branches ∧
    Adds nodes (points.map (Link.control · enter) ++ branches ++
        [Link.control ⟨again, []⟩ latch, Link.control ⟨latch, []⟩ enter])
      [(span, predicate), (condition.span, predicate), (condition.span, predicate),
        (span, predicate)] s s'
  kind : ∃ kind, predicate.kind = .predicate kind
  enter_kind : enter.kind = .outcome
  exit_kind : exit.kind = .outcome
  latch_kind : latch.kind = .loopLatch
  first : Counted s → enter = ⟨.outcome, some span, 0⟩
  counted : Counted s → Counted s'

theorem repeatLoop_spec (span : SourceSpan) (condition : AstExpr) (body : List Statement)
    (points : List FlowPoint) (s : Builder) :
    After (buildStatement a returnTarget loop (.repeatLoop span condition body) points) s fun ends s' =>
      ∃ s₀ hazards s₁ predicate enter exit latch s₂ bodyEnds s₃ bodyEnds' s₄,
        SameGraph s s₀ ∧ (hazardsReachable a condition).run s₀ = (hazards, s₁) ∧ SameGraph s₀ s₁ ∧
        Repeated span condition points s₁ predicate enter exit latch s₂ ∧
        (buildSequence a returnTarget (some ⟨predicate, exit⟩) body [⟨enter, []⟩]).run s₂ =
          (bodyEnds, s₃) ∧
        Splice bodyEnds hazards bodyEnds' s₃ s₄ ∧
        Adds [] (bodyEnds'.map (Link.control · predicate)) [] s₄ s' ∧ ends = [⟨exit, []⟩] := by
  refine After.bind (expression_same condition s) fun _ s₀ h₀ => ?_
  refine After.bind (After.ran _ s₀) fun hazards s₁ h₁ => ?_
  have hsame := (hazardsReachable_same a condition s₀).run
  rw [h₁] at hsame
  refine After.bind (addPredicate_adds condition .repeatLoop 0 s₁) fun predicate s₂ h₂ => ?_
  refine After.bind (addStructuralLoopEnter_adds span predicate s₂) fun enter s₃ h₃ => ?_
  obtain ⟨nodeEnter, hplain, hadds, hkind, hfirst⟩ := h₃
  refine After.bind (connectPoints_adds points enter s₃) fun _ s₄ h₄ => ?_
  refine After.bind (addOutcome_adds _ _ _ _ _ s₄) fun exit s₅ h₅ => ?_
  obtain ⟨nodeExit, hplain', hadds', hkind', -⟩ := h₅
  refine After.bind (addOutcome_adds _ _ _ _ _ s₅) fun again s₆ h₆ => ?_
  obtain ⟨nodeAgain, hplain'', hadds'', hkind'', -⟩ := h₆
  refine After.bind (expression_same condition s₆) fun guard s₇ h₇ => ?_
  obtain rfl := h₇.1
  refine After.bind (addBranches_adds predicate exit again (.source condition) _ s₇) fun _ s₈ h₈ => ?_
  obtain ⟨branches, hbranches, haddsBranches⟩ := h₈
  refine After.bind (addLoopBack_adds span predicate s₈) fun latch s₉ h₉ => ?_
  obtain ⟨nodeLatch, hplainLatch, haddsLatch, hkindLatch⟩ := h₉
  refine After.bind (addEdge_adds _ _ _ _ _ _ s₉) fun _ s₁₀ h₁₀ => ?_
  refine After.bind (addEdge_adds _ _ _ _ _ _ s₁₀) fun _ s₁₁ h₁₁ => ?_
  refine After.bind (After.ran _ s₁₁) fun bodyEnds s₁₂ h₁₂ => ?_
  refine After.bind (insertHazards_splice hazards bodyEnds s₁₂) fun bodyEnds' s₁₃ h₁₃ => ?_
  refine After.bind (connectPoints_adds bodyEnds' predicate s₁₃) fun _ s₁₄ h₁₄ => ?_
  have hrest := ((((((hadds.trans h₄.1).trans hadds').trans hadds'').trans h₇.2.adds).trans
    haddsBranches).trans haddsLatch).trans (h₁₀.1.trans h₁₁.1)
  have hall := h₂.1.trans hrest
  have hplainPredicate : Plain predicate ⟨predicate, none, none⟩ := ⟨rfl, rfl⟩
  refine After.pure ⟨s₀, hazards, s₁, predicate, enter, exit, latch, s₁₁, bodyEnds, s₁₂, bodyEnds',
    s₁₃, h₀.2, h₁, hsame, ⟨⟨again, _, branches, .cons hplainPredicate (.cons hplain (.cons hplain'
      (.cons hplain'' (.cons hplainLatch .nil)))), hkind'', hbranches, ?_⟩, ⟨.repeatLoop, h₂.2.1⟩,
      hkind, hkind', hkindLatch, fun hcounted => hfirst (h₂.2.2 hcounted), fun hcounted => ?_⟩,
      h₁₂, h₁₃, h₁₄.1, rfl⟩
  · simpa [Link.control] using hall
  · have hpredicate : predicate ∈ s₂.nodeIds := by simp [h₂.1.nodeIds]
    exact hrest.counted (by simpa using hpredicate) (h₂.1.counted (by simp) hcounted)

/-- A branch of an IF: where its body ends, and where control is when its condition does not hold. -/
theorem ifBlock_spec (index : ℕ) (hasElse : Bool) (condition : AstExpr) (body : List Statement)
    (rest : List ConditionalBlock) (points : List FlowPoint) (s : Builder) :
    After (buildIfBlocks a returnTarget loop index hasElse (⟨condition, body⟩ :: rest) points) s
      fun result s' => ∃ points' s₁ predicate whenTrue whenFalse s₂ bodyEnds s₃ falsePoint s₄ result',
        Conditioned a condition points s points' s₁ ∧
        Forked condition.span points' (.source condition) s₁ predicate whenTrue whenFalse s₂ ∧
        (buildSequence a returnTarget loop body [⟨whenTrue, []⟩]).run s₂ = (bodyEnds, s₃) ∧
        (falsePoint = whenFalse ∧ s₄ = s₃ ∨ ∃ node, Plain falsePoint node ∧
          falsePoint.kind = .outcome ∧
          Adds [node] [Link.control ⟨whenFalse, []⟩ falsePoint] [(condition.span, predicate)] s₃ s₄) ∧
        (buildIfBlocks a returnTarget loop (index + 1) hasElse rest [⟨falsePoint, []⟩]).run s₄ =
          (result', s') ∧
        result = (bodyEnds ++ result'.1, result'.2) := by
  refine After.bind (conditionHazards_spec a points condition s) fun points' s₁ h₁ => ?_
  refine fork_spec (expression_same condition) fun predicate whenTrue whenFalse guard s₂ hguard h₂ => ?_
  obtain rfl := hguard
  refine After.bind (After.ran _ s₂) fun bodyEnds s₃ h₃ => ?_
  apply After.ite
  · intro _
    refine After.bind (addStructuralElse_adds _ predicate s₃) fun elseEntry s₄ h₄ => ?_
    obtain ⟨node, hplain, hadds, hkind⟩ := h₄
    refine After.bind (addEdge_adds _ _ _ _ _ _ s₄) fun _ s₅ h₅ => ?_
    refine After.bind (After.ran _ s₅) fun falsePoint s₆ h₆ => ?_
    cases h₆
    refine After.bind (After.ran _ s₅) fun result' s₇ h₇ => ?_
    refine After.pure ⟨points', s₁, predicate, whenTrue, whenFalse, s₂, bodyEnds, s₃, elseEntry, s₅,
      result', h₁, h₂, h₃, .inr ⟨node, hplain, hkind, ?_⟩, h₇, rfl⟩
    simpa [Link.control] using hadds.trans h₅.1
  · intro _
    refine After.bind (After.ran _ s₃) fun falsePoint s₄ h₄ => ?_
    cases h₄
    refine After.bind (After.ran _ s₃) fun result' s₅ h₅ => ?_
    exact After.pure ⟨points', s₁, predicate, whenTrue, whenFalse, s₂, bodyEnds, s₃, whenFalse, s₃,
      result', h₁, h₂, h₃, .inl ⟨rfl, rfl⟩, h₅, rfl⟩

theorem ifs_spec (span : SourceSpan) (blocks : List ConditionalBlock) (elseBlock : List Statement)
    (points : List FlowPoint) (s : Builder) :
    After (buildStatement a returnTarget loop (.ifs span blocks elseBlock) points) s fun ends s' =>
      ∃ result s₁ elseEnds,
        (buildIfBlocks a returnTarget loop 0 (!elseBlock.isEmpty) blocks points).run s = (result, s₁) ∧
        (buildSequence a returnTarget loop elseBlock result.2).run s₁ = (elseEnds, s') ∧
        ends = result.1 ++ elseEnds := by
  refine After.bind (After.ran _ s) fun result s₁ h₁ => ?_
  refine After.bind (After.ran _ s₁) fun elseEnds s₂ h₂ => ?_
  exact After.pure ⟨result, s₁, elseEnds, h₁, h₂, rfl⟩

theorem cases_spec (span : SourceSpan) (selector : AstExpr) (blocks : List ConditionalBlock)
    (elseBlock : List Statement) (points : List FlowPoint) (s : Builder) :
    After (buildStatement a returnTarget loop (.cases span selector blocks elseBlock) points) s
      fun ends s' => ∃ points' s₁ predicate s₂ result s₃ default s₄ elseEnds,
        Conditioned a selector points s points' s₁ ∧
        (∃ kind, predicate.kind = .predicate kind) ∧
        Adds [⟨predicate, none, none⟩] (points'.map (Link.control · predicate)) [] s₁ s₂ ∧
        (Counted s₁ → Unused s₂ predicate) ∧
        (buildCaseBlocks a returnTarget loop predicate (.source selector) 0 blocks).run s₂ =
          (result, s₃) ∧
        (∃ node guard, Plain default node ∧ default.kind = .outcome ∧ IsNor result.2 guard ∧
          Adds [node] [.evaluation predicate default guard] [(selector.span, predicate)] s₃ s₄ ∧
          (Unused s₃ predicate → default = ⟨.outcome, some selector.span, blocks.length * 1024⟩)) ∧
        (buildSequence a returnTarget loop elseBlock [⟨default, []⟩]).run s₄ = (elseEnds, s') ∧
        ends = result.1 ++ elseEnds := by
  refine After.bind (conditionHazards_spec a points selector s) fun points' s₁ h₁ => ?_
  refine After.bind (addPredicate_adds selector .case 0 s₁) fun predicate s₂ h₂ => ?_
  refine After.bind (connectPoints_adds points' predicate s₂) fun _ s₃ h₃ => ?_
  refine After.bind (expression_same selector s₃) fun selectorId s₄ h₄ => ?_
  obtain rfl := h₄.1
  refine After.bind (After.ran _ s₄) fun result s₅ h₅ => ?_
  refine After.bind (addOutcome_adds _ _ _ _ _ s₅) fun default s₆ h₆ => ?_
  obtain ⟨node, hplain, hadds, hkind, hfirst⟩ := h₆
  refine After.bind (syntheticNor_same selector.span result.2 s₆) fun guard s₇ h₇ => ?_
  refine After.bind (addEdge_adds _ _ _ _ _ _ s₇) fun _ s₈ h₈ => ?_
  refine After.bind (After.ran _ s₈) fun elseEnds s₉ h₉ => ?_
  refine After.pure ⟨points', s₁, predicate, s₄, result, s₅, default, s₈, elseEnds, h₁,
    ⟨.case, h₂.2.1⟩, ?_, fun hcounted => ?_, h₅, ⟨node, guard, hplain, hkind, h₇.1, ?_, hfirst⟩, h₉, rfl⟩
  · simpa using (h₂.1.trans h₃.1).trans h₄.2.adds
  · exact ((h₂.2.2 hcounted).of_eq h₃.2).of_eq h₄.2.nodeOrdinals
  · simpa [Link.evaluation] using (hadds.trans h₇.2.adds).trans h₈.1

/-- A label of a CASE: its outcome, and a copy of the body. -/
theorem label_spec (predicate : NodeId) (selector : TypedExpression)
    (buildBody : NodeId → BuildM (List FlowPoint)) (ordinal : ℕ) (label : AstExpr)
    (labels : List AstExpr) (s : Builder) :
    After (buildLabels predicate selector buildBody ordinal (label :: labels)) s fun result s' =>
      ∃ guard outcome s₁ bodyEnds s₂ result', IsCaseGuard selector label guard ∧
        outcome.kind = .outcome ∧ (∃ node, Plain outcome node ∧
          Adds [node] [.evaluation predicate outcome guard] [(label.span, predicate)] s s₁) ∧
        (Unused s predicate → outcome = ⟨.outcome, some label.span, ordinal⟩) ∧
        (buildBody outcome).run s₁ = (bodyEnds, s₂) ∧
        (buildLabels predicate selector buildBody (ordinal + 1) labels).run s₂ = (result', s') ∧
        result = (bodyEnds ++ result'.1, guard :: result'.2) := by
  refine After.bind (expression_same label s) fun labelId s₁ h₁ => ?_
  refine After.bind (caseGuardExpression_same selector label s₁) fun guard s₂ h₂ => ?_
  refine After.bind (addOutcome_adds _ _ _ _ _ s₂) fun outcome s₃ h₃ => ?_
  obtain ⟨node, hplain, hadds, hkind, hfirst⟩ := h₃
  refine After.bind (addEdge_adds _ _ _ _ _ _ s₃) fun _ s₄ h₄ => ?_
  refine After.bind (After.ran _ s₄) fun bodyEnds s₅ h₅ => ?_
  refine After.bind (After.ran _ s₅) fun result' s₆ h₆ => ?_
  have hsame := h₁.2.trans h₂.2
  refine After.pure ⟨guard, outcome, s₄, bodyEnds, s₅, result', h₂.1, hkind, ⟨node, hplain, ?_⟩,
    fun hunused => hfirst (hunused.of_eq hsame.nodeOrdinals), h₅, h₆, rfl⟩
  simpa [Link.evaluation] using (hsame.adds.trans hadds).trans h₄.1

theorem caseBlock_spec (predicate : NodeId) (selector : TypedExpression) (blockIndex : ℕ)
    (condition : AstExpr) (body : List Statement) (rest : List ConditionalBlock) (s : Builder) :
    After (buildCaseBlocks a returnTarget loop predicate selector blockIndex
      (⟨condition, body⟩ :: rest)) s fun result s' => ∃ result₁ s₁ result₂,
        (buildLabels predicate selector
          (fun outcome => buildSequence a returnTarget loop body [⟨outcome, []⟩])
          (blockIndex * 1024) (caseLabels condition)).run s = (result₁, s₁) ∧
        (buildCaseBlocks a returnTarget loop predicate selector (blockIndex + 1) rest).run s₁ =
          (result₂, s') ∧
        result = (result₁.1 ++ result₂.1, result₁.2 ++ result₂.2) := by
  refine After.bind (After.ran _ s) fun result₁ s₁ h₁ => ?_
  refine After.bind (After.ran _ s₁) fun result₂ s₂ h₂ => ?_
  exact After.pure ⟨result₁, s₁, result₂, h₁, h₂, rfl⟩

end

end SemantiST.Stg
