import SemantiST.Stg.Steps

/-!
# Every part of the builder only adds to the graph

One rule for each part, down to the statements: what the builder has made stays, and what it makes
keeps the invariants of the counters and of the expressions.
-/

namespace SemantiST.Stg

open Lib Semantic

variable {roots : List AstExpr} {s s' : Builder}

/-! ## Expressions -/

theorem Registers.step {es : List AstExpr} (h : Valid roots s) (hregisters : Registers roots es s s') :
    Step roots s s' := h.step_of_same hregisters.registry hregisters.same hregisters.grows

theorem expression_step (hplaced : Placed roots) (h : Valid roots s) {e : AstExpr}
    (he : e ∈ nodesOfAll roots) :
    After (expression e) s fun r s' => Step roots s s' ∧ r = .source e ∧ Registered s' e := by
  refine After.bind (registerExpression_spec hplaced e s h.registry he) fun _ s₁ h₁ => ?_
  refine After.pure ⟨h₁.step h, rfl, fun e' he' => h₁.all e' ?_⟩
  rw [nodesOfAll]
  exact List.mem_append_left _ he'

theorem expression_steps (hplaced : Placed roots) (h : Valid roots s) {e : AstExpr}
    (he : e ∈ roots) : Steps roots (expression e) s :=
  After.mono (expression_step hplaced h (mem_nodesOfAll he)) fun _ _ h' => h'.1

section

variable {location : SourceSpan}

theorem syntheticExpression_steps (h : Valid roots s) (hlocation : Located roots s location)
    (kind : ExpressionKind) (operands : List TypedExpression) (typeName : Text) :
    Steps roots (syntheticExpression kind operands typeName location) s := by
  refine After.mono (syntheticExpression_spec h.registry hlocation kind operands typeName)
    fun _ s₁ h₁ => ?_
  obtain ⟨hregistry, hsame, -, hbyAst⟩ := h₁
  exact h.step_of_same hregistry hsame (by rw [hbyAst]; exact List.Subset.refl _)

theorem Step.located (h : Step roots s s') (hlocation : Located roots s location) :
    Located roots s' location := hlocation.mono h.byAst

theorem syntheticOr_steps (combined : TypedExpression) (guards : List TypedExpression)
    (h : Valid roots s) (hlocation : Located roots s location) :
    Steps roots (syntheticOr combined location guards) s := by
  induction guards generalizing s combined with
  | nil => exact Steps.pure h
  | cons guard guards ih =>
    refine Steps.bind (syntheticExpression_steps h hlocation _ _ _) fun combined s₁ h₁ => ?_
    exact ih combined h₁.valid (h₁.located hlocation)

theorem syntheticNor_steps (guards : List TypedExpression) (h : Valid roots s)
    (hlocation : Located roots s location) : Steps roots (syntheticNor guards location) s := by
  cases guards with
  | nil => exact syntheticExpression_steps h hlocation _ _ _
  | cons guard guards =>
    refine Steps.bind (syntheticOr_steps guard guards h hlocation) fun combined s₁ h₁ => ?_
    exact syntheticExpression_steps h₁.valid (h₁.located hlocation) _ _ _

end

theorem located_of_registered {e : AstExpr} (he : e ∈ roots) (hreg : Registered s e) :
    Located roots s e.span := ⟨e, he, rfl, hreg⟩

theorem caseGuardExpression_steps (selector : TypedExpression) (label : AstExpr) (h : Valid roots s)
    (hlocation : Located roots s label.span) :
    Steps roots (caseGuardExpression selector label) s := by
  unfold caseGuardExpression
  split
  · refine Steps.bind (syntheticExpression_steps h hlocation _ _ _) fun ge s₁ h₁ => ?_
    have hlocation := h₁.located hlocation
    refine Steps.bind (syntheticExpression_steps h₁.valid hlocation _ _ _) fun le s₂ h₂ => ?_
    exact syntheticExpression_steps h₂.valid (h₂.located hlocation) _ _ _
  · exact syntheticExpression_steps h hlocation _ _ _

theorem forConditionExpression_steps (hplaced : Placed roots) (h : Valid roots s)
    {counter stop : AstExpr} {byStep : Option AstExpr} (hcounter : counter ∈ roots)
    (hstop : stop ∈ roots) (hbyStep : ∀ step, byStep = some step → step ∈ roots) :
    Steps roots (forConditionExpression counter stop byStep) s := by
  refine Steps.bind (expression_steps hplaced h hcounter) fun _ s₁ h₁ => ?_
  refine Steps.bind_of (expression_step hplaced h₁.valid (mem_nodesOfAll hstop))
    fun _ s₂ h₂ hreg => ?_
  have hlocation := located_of_registered hstop hreg.2
  cases byStep with
  | none => exact syntheticExpression_steps h₂.valid hlocation _ _ _
  | some step =>
    refine Steps.bind (expression_steps hplaced h₂.valid (hbyStep step rfl)) fun _ s₃ h₃ => ?_
    have hlocation := h₃.located hlocation
    refine Steps.bind (syntheticExpression_steps h₃.valid hlocation _ _ _) fun _ s₄ h₄ => ?_
    have hlocation := h₄.located hlocation
    refine Steps.bind (syntheticExpression_steps h₄.valid hlocation _ _ _) fun _ s₅ h₅ => ?_
    have hlocation := h₅.located hlocation
    refine Steps.bind (syntheticExpression_steps h₅.valid hlocation _ _ _) fun _ s₆ h₆ => ?_
    have hlocation := h₆.located hlocation
    refine Steps.bind (syntheticExpression_steps h₆.valid hlocation _ _ _) fun _ s₇ h₇ => ?_
    have hlocation := h₇.located hlocation
    refine Steps.bind (syntheticExpression_steps h₇.valid hlocation _ _ _) fun _ s₈ h₈ => ?_
    have hlocation := h₈.located hlocation
    refine Steps.bind (syntheticExpression_steps h₈.valid hlocation _ _ _) fun _ s₉ h₉ => ?_
    have hlocation := h₉.located hlocation
    refine Steps.bind (syntheticExpression_steps h₉.valid hlocation _ _ _) fun _ s₁₀ h₁₀ => ?_
    exact syntheticExpression_steps h₁₀.valid (h₁₀.located hlocation) _ _ _

/-! ## Hazards -/

/-- A change of the hazards that are known. -/
theorem Valid.step_hazards (h : Valid roots s) (known : List HazardKey) :
    Step roots s { s with hazardByExpression := known } :=
  have hsame : SameExpressions s { s with hazardByExpression := known } := ⟨rfl, rfl, rfl⟩
  h.step_of_same (h.registry.of_same hsame).registry ⟨rfl, rfl, rfl, rfl, rfl⟩ (List.Subset.refl _)

theorem hazardsReachable_steps (a : Annotations) (root : AstExpr) (h : Valid roots s) :
    Steps roots (hazardsReachable a root) s := h.step_hazards _

theorem reportHazard_steps (candidate : HazardCandidate) (h : Valid roots s) :
    Steps roots (reportHazard candidate) s := by
  apply After.get_bind
  apply Steps.ite
  · intro _
    exact Steps.pure h
  · intro _
    exact h.step_hazards _

/-- The hazards of an assignment that are reported only when something holds. -/
theorem reportWhen_steps {β : Type} {c : Prop} [Decidable c] {candidate : HazardCandidate}
    {f : List HazardCandidate → BuildM β} (h : Valid roots s)
    (hf : ∀ hazards s', Step roots s s' → Steps roots (f hazards) s') :
    Steps roots (if c then reportHazard candidate >>= f else f []) s :=
  Steps.ite (fun _ => Steps.bind (reportHazard_steps candidate h) hf)
    fun _ => hf [] s (Step.refl h)

theorem insertHazard_steps (points : List FlowPoint) (hazard : HazardCandidate) (h : Valid roots s) :
    Steps roots (insertHazard points hazard) s := by
  refine After.bind (addNode_eq _ _ _ s) fun node s₁ h₁ => ?_
  refine After.bind (connectPoints_linked points node s₁) fun _ s₂ h₂ => ?_
  have hknown : ∀ d', none = some d' → d' ∈ s.nodeIds := by simp
  have hkind : node.kind = .hazard := by rw [h₁.id_eq]
  apply After.ite
  · intro hexternal
    refine After.bind (addTarget_linked node .externalOutput none s₂) fun _ s₃ h₃ => ?_
    refine After.pure (h.step_of_node rfl hknown h₁ (h₂.trans h₃) ?_)
    have hkey : hazard.key.1 = .externalOutput := hexternal
    simp [Node.targetIds, Node.targetKinds, hkind, hkey]
  · intro hother
    refine After.bind (addTarget_linked node .hazardReach none s₂) fun _ s₃ h₃ => ?_
    refine After.bind (addTarget_linked node .hazardViolation none s₃) fun _ s₄ h₄ => ?_
    refine After.pure (h.step_of_node rfl hknown h₁ (h₂.trans (h₃.trans h₄)) ?_)
    have hkey : ¬hazard.key.1 = .externalOutput := hother
    simp [Node.targetIds, Node.targetKinds, hkind, hkey]

theorem insertHazards_steps (hazards : List HazardCandidate) (points : List FlowPoint)
    (h : Valid roots s) : Steps roots (insertHazards points hazards) s := by
  induction hazards generalizing s points with
  | nil => exact Steps.pure h
  | cons hazard hazards ih =>
    exact Steps.bind (insertHazard_steps points hazard h) fun points s₁ h₁ => ih points h₁.valid

theorem hazardsOfRoots_steps (a : Annotations) (es : List AstExpr) (h : Valid roots s) :
    Steps roots (hazardsOfRoots a es) s := by
  induction es generalizing s with
  | nil => exact Steps.pure h
  | cons e es ih =>
    refine Steps.bind (hazardsReachable_steps a e h) fun _ s₁ h₁ => ?_
    exact Steps.bind (ih h₁.valid) fun _ s₂ h₂ => Steps.pure h₂.valid

theorem conditionHazards_step (hplaced : Placed roots) (a : Annotations) (points : List FlowPoint)
    {condition : AstExpr} (hcondition : condition ∈ roots) (h : Valid roots s) :
    After (conditionHazards a points condition) s fun _ s' =>
      Step roots s s' ∧ Registered s' condition := by
  refine After.bind (expression_step hplaced h (mem_nodesOfAll hcondition)) fun _ s₁ h₁ => ?_
  obtain ⟨h₁, -, hreg⟩ := h₁
  refine After.bind (hazardsReachable_steps a condition h₁.valid) fun hazards s₂ h₂ => ?_
  refine After.mono (insertHazards_steps hazards points h₂.valid) fun _ s₃ h₃ => ?_
  have h₂₃ := h₂.trans h₃
  exact ⟨h₁.trans h₂₃, hreg.mono h₂₃.byAst⟩

theorem summarizeStatement_steps (hplaced : Placed roots) (a : Annotations) (statement : Statement)
    (hroots : ∀ e ∈ statement.roots, e ∈ roots) (h : Valid roots s) :
    Steps roots (summarizeStatement a statement) s := by
  cases statement with
  | assignment span left right =>
    rw [Statement.roots] at hroots
    refine Steps.bind (expression_steps hplaced h (hroots _ (by simp))) fun target s₁ h₁ => ?_
    refine Steps.bind (expression_steps hplaced h₁.valid (hroots _ (by simp))) fun value s₂ h₂ => ?_
    refine Steps.bind (hazardsOfRoots_steps a _ h₂.valid) fun hazards s₃ h₃ => ?_
    refine reportWhen_steps h₃.valid fun output s₄ h₄ => ?_
    refine reportWhen_steps h₄.valid fun narrowing s₅ h₅ => ?_
    exact Steps.pure h₅.valid
  | call call =>
    rw [Statement.roots] at hroots
    refine Steps.bind (expression_steps hplaced h (hroots _ (by simp))) fun _ s₁ h₁ => ?_
    exact Steps.bind (hazardsOfRoots_steps a _ h₁.valid) fun _ s₂ h₂ => Steps.pure h₂.valid
  | _ => exact Steps.pure h

theorem buildSimple_steps (hplaced : Placed roots) (a : Annotations) (statement : Statement)
    (points : List FlowPoint) (hroots : ∀ e ∈ statement.roots, e ∈ roots) (h : Valid roots s) :
    Steps roots (buildSimple a statement points) s := by
  refine Steps.bind (summarizeStatement_steps hplaced a statement hroots h) fun result s₁ h₁ => ?_
  refine Steps.bind (insertHazards_steps _ points h₁.valid) fun points s₂ h₂ => ?_
  split
  · exact Steps.pure h₂.valid
  · exact Steps.pure h₂.valid

/-! ## Nodes of control statements -/

theorem addPredicate_step (hplaced : Placed roots) {condition : AstExpr}
    (hcondition : condition ∈ roots) (kind : PredicateKind) (ordinal : ℕ) (h : Valid roots s) :
    After (addPredicate condition kind ordinal) s fun id s' =>
      Step roots s s' ∧ id ∉ s.nodeIds ∧ id ∈ s'.nodeIds := by
  refine After.bind (expression_step hplaced h (mem_nodesOfAll hcondition)) fun _ s₁ h₁ => ?_
  obtain ⟨h₁, -, -⟩ := h₁
  refine After.mono (addNode_eq _ _ _ s₁) fun id s₂ h₂ => ?_
  have hstep := h₁.valid.step_of_node rfl (by simp) h₂ (Linked.refl s₂)
    (by simp [Node.targetIds, Node.targetKinds, h₂.id_eq])
  refine ⟨h₁.trans hstep, fun hmem => ?_, h₂.mem⟩
  exact h₁.valid.counted.fresh rfl h₂ (h₁.mem_nodeIds hmem)

/-- An outcome or a latch with its target. -/
theorem addMarked_step {spec : NodeSpec} {ordinal : ℕ} {predicate : NodeId} {kind : TargetKind}
    {role : Option OutcomeRole} (hkind : spec.kind.ofPredicate = true)
    (hpredicate : predicate ∈ s.nodeIds) (h : Valid roots s)
    (htarget : ∀ id : NodeId, id.kind = spec.kind →
      Node.targetKinds ⟨id, spec.outcome, spec.hazard⟩ = [kind]) :
    After (do
      let node ← addNode spec ordinal (some predicate)
      addTarget node kind role
      return node) s fun id s' => Step roots s s' ∧ id ∈ s'.nodeIds := by
  refine After.bind (addNode_eq _ _ _ s) fun id s₁ h₁ => ?_
  refine After.bind (addTarget_linked id kind role s₁) fun _ s₂ h₂ => ?_
  have hd : (some predicate).isSome = spec.kind.ofPredicate := hkind.symm
  refine After.pure ⟨h.step_of_node hd (by simpa using hpredicate) h₁ h₂ ?_, ?_⟩
  · rw [Node.targetIds, htarget id (by rw [h₁.id_eq])]
    rfl
  · rw [h₂.nodeIds]
    exact h₁.mem

section

variable {predicate : NodeId} (hpredicate : predicate ∈ s.nodeIds) (h : Valid roots s)
  (span : SourceSpan)

include hpredicate h

theorem addOutcome_step (role : OutcomeRole) (value : OutcomeValue) (ordinal : ℕ) :
    After (addOutcome predicate span role value ordinal) s fun id s' =>
      Step roots s s' ∧ id ∈ s'.nodeIds :=
  addMarked_step rfl hpredicate h fun id hid => by
    rw [Node.targetKinds, hid]
    rfl

theorem addStructuralLoopEnter_step :
    After (addStructuralLoopEnter span predicate) s fun id s' => Step roots s s' ∧ id ∈ s'.nodeIds :=
  addMarked_step rfl hpredicate h fun id hid => by
    rw [Node.targetKinds, hid]
    rfl

theorem addStructuralElse_step :
    After (addStructuralElse span predicate) s fun id s' => Step roots s s' ∧ id ∈ s'.nodeIds :=
  addMarked_step rfl hpredicate h fun id hid => by
    rw [Node.targetKinds, hid]
    rfl

theorem addLoopBack_step :
    After (addLoopBack span predicate) s fun id s' => Step roots s s' ∧ id ∈ s'.nodeIds :=
  addMarked_step rfl hpredicate h fun id hid => by
    rw [Node.targetKinds, hid]

end

theorem addLoopControl_steps (points : List FlowPoint) (span : SourceSpan) (role : OutcomeRole)
    (target : NodeId) (isBackEdge : Bool) (h : Valid roots s) :
    Steps roots (addLoopControl points span role target isBackEdge) s := by
  refine After.bind (addNode_eq _ _ _ s) fun node s₁ h₁ => ?_
  refine After.bind (connectPoints_linked points node s₁) fun _ s₂ h₂ => ?_
  refine After.bind (addTarget_linked node .controlTransfer (some role) s₂) fun _ s₃ h₃ => ?_
  refine After.mono (addEdge_linked _ _ _ _ _ _ s₃) fun _ s₄ h₄ => ?_
  have hkind : node.kind = .loopControl := by rw [h₁.id_eq]
  exact h.step_of_node rfl (by simp) h₁ (h₂.trans (h₃.trans h₄))
    (by simp [Node.targetIds, Node.targetKinds, hkind])

theorem connectPoints_steps (points : List FlowPoint) (target : NodeId) (h : Valid roots s) :
    Steps roots (connectPoints points target) s :=
  After.mono (connectPoints_linked points target s) fun _ _ h' => h.step_of_linked h'

theorem addEdge_steps (source target : NodeId) (kind : EdgeKind) (guard : Option TypedExpression)
    (transfer : Option (List TransferOperation)) (isBackEdge : Bool) (h : Valid roots s) :
    Steps roots (addEdge source target kind guard transfer isBackEdge) s :=
  After.mono (addEdge_linked source target kind guard transfer isBackEdge s)
    fun _ _ h' => h.step_of_linked h'

theorem addBranches_steps (predicate whenTrue whenFalse : NodeId) (guard : TypedExpression)
    {location : SourceSpan} (h : Valid roots s) (hlocation : Located roots s location) :
    Steps roots (addBranches predicate whenTrue whenFalse guard location) s := by
  refine Steps.bind (syntheticExpression_steps h hlocation _ _ _) fun negated s₁ h₁ => ?_
  refine Steps.bind (addEdge_steps _ _ _ _ _ _ h₁.valid) fun _ s₂ h₂ => ?_
  exact addEdge_steps _ _ _ _ _ _ h₂.valid

/-! ## Statements -/

theorem addDiagnostic_steps (code : Text) (h : Valid roots s) : Steps roots (addDiagnostic code) s := by
  have hsame : SameExpressions s { s with diagnostics := s.diagnostics ++ [code] } := ⟨rfl, rfl, rfl⟩
  exact After.modify (h.step_of_same (h.registry.of_same hsame).registry ⟨rfl, rfl, rfl, rfl, rfl⟩
    (List.Subset.refl _))

/-- A condition's predicate with its two branches, and what is built from them. -/
theorem branches_steps (hplaced : Placed roots) {condition : AstExpr} (hcondition : condition ∈ roots)
    {kind : PredicateKind} {ordinal : ℕ} {points : List FlowPoint} {role role' : OutcomeRole}
    {value value' : OutcomeValue} {guard : BuildM TypedExpression} {β : Type} {next : NodeId → NodeId → NodeId → BuildM β}
    (h : Valid roots s) (hlocation : Located roots s condition.span)
    (hguard : ∀ s', Step roots s s' → Steps roots guard s')
    (hnext : ∀ predicate enter exit s', Step roots s s' → predicate ∈ s'.nodeIds →
      Steps roots (next predicate enter exit) s') :
    Steps roots (do
      let predicate ← addPredicate condition kind ordinal
      connectPoints points predicate
      let enter ← addOutcome predicate condition.span role value 0
      let exit ← addOutcome predicate condition.span role' value' 1
      let guard ← guard
      addBranches predicate enter exit guard condition.span
      next predicate enter exit) s := by
  refine Steps.bind_of (addPredicate_step hplaced hcondition kind ordinal h) fun predicate s₁ h₁ hpredicate => ?_
  refine Steps.bind (connectPoints_steps points predicate h₁.valid) fun _ s₂ h₂ => ?_
  have hpredicate₂ := h₂.mem_nodeIds hpredicate.2
  refine Steps.bind_of (addOutcome_step hpredicate₂ h₂.valid _ _ _ _) fun enter s₃ h₃ _ => ?_
  have hpredicate₃ := h₃.mem_nodeIds hpredicate₂
  refine Steps.bind_of (addOutcome_step hpredicate₃ h₃.valid _ _ _ _) fun exit s₄ h₄ _ => ?_
  have h₀₄ := h₁.trans (h₂.trans (h₃.trans h₄))
  refine Steps.bind (hguard s₄ h₀₄) fun guard s₅ h₅ => ?_
  refine Steps.bind (addBranches_steps _ _ _ guard h₅.valid ((h₀₄.trans h₅).located hlocation)) fun _ s₆ h₆ => ?_
  exact hnext predicate enter exit s₆ (h₀₄.trans (h₅.trans h₆))
    ((h₅.trans h₆).mem_nodeIds (h₄.mem_nodeIds hpredicate₃))

theorem buildLabels_steps (hplaced : Placed roots) {predicate : NodeId} (selector : TypedExpression)
    {buildBody : NodeId → BuildM (List FlowPoint)}
    (hbody : ∀ outcome s, Valid roots s → Steps roots (buildBody outcome) s) (labels : List AstExpr)
    (hlabels : ∀ label ∈ labels, label ∈ roots) (ordinal : ℕ) (h : Valid roots s)
    (hpredicate : predicate ∈ s.nodeIds) :
    Steps roots (buildLabels predicate selector buildBody ordinal labels) s := by
  induction labels generalizing s ordinal with
  | nil => exact Steps.pure h
  | cons label labels ih =>
    have hlabel := hlabels label List.mem_cons_self
    refine Steps.bind_of (expression_step hplaced h (mem_nodesOfAll hlabel)) fun _ s₁ h₁ hreg => ?_
    have hlocation := located_of_registered hlabel hreg.2
    refine Steps.bind (caseGuardExpression_steps selector label h₁.valid hlocation)
      fun guard s₂ h₂ => ?_
    have hpredicate₂ := h₂.mem_nodeIds (h₁.mem_nodeIds hpredicate)
    refine Steps.bind_of (addOutcome_step hpredicate₂ h₂.valid _ _ _ _) fun outcome s₃ h₃ _ => ?_
    refine Steps.bind (addEdge_steps _ _ _ _ _ _ h₃.valid) fun _ s₄ h₄ => ?_
    refine Steps.bind (hbody outcome s₄ h₄.valid) fun _ s₅ h₅ => ?_
    refine Steps.bind (ih (fun e he => hlabels e (List.mem_cons_of_mem _ he)) _ h₅.valid
      (h₅.mem_nodeIds (h₄.mem_nodeIds (h₃.mem_nodeIds hpredicate₂)))) fun _ s₆ h₆ => ?_
    exact Steps.pure h₆.valid

section

variable (a : Annotations) (returnTarget : NodeId)

mutual

theorem buildStatement_steps (hplaced : Placed roots) : ∀ (statement : Statement) (loop : Option LoopContext)
    (points : List FlowPoint) (s : Builder), (∀ e ∈ statement.roots, e ∈ roots) → Valid roots s →
    Steps roots (buildStatement a returnTarget loop statement points) s
  | .ifs span blocks elseBlock, loop, points, s, hroots, h => by
    rw [Statement.roots] at hroots
    refine Steps.bind (buildIfBlocks_steps hplaced blocks loop 0 (!elseBlock.isEmpty) points s
      (fun e he => hroots e (List.mem_append_left _ he)) h) fun r s₁ h₁ => ?_
    refine Steps.bind (buildSequence_steps hplaced elseBlock loop r.2 s₁
      (fun e he => hroots e (List.mem_append_right _ he)) h₁.valid) fun _ s₂ h₂ => ?_
    exact Steps.pure h₂.valid
  | .cases span selector blocks elseBlock, loop, points, s, hroots, h => by
    rw [Statement.roots] at hroots
    have hselector := hroots selector List.mem_cons_self
    refine Steps.bind_of (conditionHazards_step hplaced a points hselector h)
      fun points s₁ h₁ hreg => ?_
    have hlocation := located_of_registered hselector hreg
    refine Steps.bind_of (addPredicate_step hplaced hselector .case 0 h₁.valid)
      fun predicate s₂ h₂ hpredicate => ?_
    refine Steps.bind (connectPoints_steps points predicate h₂.valid) fun _ s₃ h₃ => ?_
    refine Steps.bind (expression_steps hplaced h₃.valid hselector) fun selectorId s₄ h₄ => ?_
    have hpredicate₄ := h₄.mem_nodeIds (h₃.mem_nodeIds hpredicate.2)
    refine Steps.bind (buildCaseBlocks_steps hplaced blocks loop predicate selectorId 0 s₄
      (fun e he => hroots e (List.mem_cons_of_mem _ (List.mem_append_left _ he))) h₄.valid
      hpredicate₄) fun r s₅ h₅ => ?_
    refine Steps.bind_of (addOutcome_step (h₅.mem_nodeIds hpredicate₄) h₅.valid _ _ _ _)
      fun default s₆ h₆ _ => ?_
    have hlocation₆ := (h₂.trans (h₃.trans (h₄.trans (h₅.trans h₆)))).located hlocation
    refine Steps.bind (syntheticNor_steps r.2 h₆.valid hlocation₆) fun guard s₇ h₇ => ?_
    refine Steps.bind (addEdge_steps _ _ _ _ _ _ h₇.valid) fun _ s₈ h₈ => ?_
    refine Steps.bind (buildSequence_steps hplaced elseBlock loop _ s₈
      (fun e he => hroots e (List.mem_cons_of_mem _ (List.mem_append_right _ he))) h₈.valid)
      fun _ s₉ h₉ => ?_
    exact Steps.pure h₉.valid
  | .whileLoop span condition body, loop, points, s, hroots, h => by
    rw [Statement.roots] at hroots
    have hcondition := hroots condition List.mem_cons_self
    refine Steps.bind_of (conditionHazards_step hplaced a points hcondition h)
      fun points s₁ h₁ hreg => ?_
    refine branches_steps hplaced hcondition h₁.valid (located_of_registered hcondition hreg)
      (fun _ h => expression_steps hplaced h.valid hcondition) fun predicate enter exit s₂ h₂ hpredicate => ?_
    refine Steps.bind (buildSequence_steps hplaced body _ _ s₂
      (fun e he => hroots e (List.mem_cons_of_mem _ he)) h₂.valid) fun ends s₃ h₃ => ?_
    refine Steps.bind_of (addLoopBack_step (h₃.mem_nodeIds hpredicate) h₃.valid _) fun latch s₄ h₄ _ => ?_
    refine Steps.bind (connectPoints_steps ends latch h₄.valid) fun _ s₅ h₅ => ?_
    refine Steps.bind (addEdge_steps _ _ _ _ _ _ h₅.valid) fun _ s₆ h₆ => ?_
    exact Steps.pure h₆.valid
  | .repeatLoop span condition body, loop, points, s, hroots, h => by
    rw [Statement.roots] at hroots
    have hcondition := hroots condition List.mem_cons_self
    refine Steps.bind_of (expression_step hplaced h (mem_nodesOfAll hcondition))
      fun _ s₁ h₁ hreg => ?_
    have hlocation := located_of_registered hcondition hreg.2
    refine Steps.bind (hazardsReachable_steps a condition h₁.valid) fun hazards s₂ h₂ => ?_
    refine Steps.bind_of (addPredicate_step hplaced hcondition .repeatLoop 0 h₂.valid)
      fun predicate s₃ h₃ hpredicate => ?_
    refine Steps.bind_of (addStructuralLoopEnter_step hpredicate.2 h₃.valid _)
      fun enter s₄ h₄ _ => ?_
    have hpredicate₄ := h₄.mem_nodeIds hpredicate.2
    refine Steps.bind (connectPoints_steps points enter h₄.valid) fun _ s₅ h₅ => ?_
    have hpredicate₅ := h₅.mem_nodeIds hpredicate₄
    refine Steps.bind_of (addOutcome_step hpredicate₅ h₅.valid _ _ _ _) fun exit s₆ h₆ _ => ?_
    have hpredicate₆ := h₆.mem_nodeIds hpredicate₅
    refine Steps.bind_of (addOutcome_step hpredicate₆ h₆.valid _ _ _ _) fun again s₇ h₇ _ => ?_
    have hpredicate₇ := h₇.mem_nodeIds hpredicate₆
    refine Steps.bind (expression_steps hplaced h₇.valid hcondition) fun guard s₈ h₈ => ?_
    have hlocation₈ := (h₂.trans (h₃.trans (h₄.trans (h₅.trans (h₆.trans
      (h₇.trans h₈)))))).located hlocation
    refine Steps.bind (addBranches_steps _ _ _ guard h₈.valid hlocation₈) fun _ s₉ h₉ => ?_
    refine Steps.bind_of (addLoopBack_step ((h₈.trans h₉).mem_nodeIds hpredicate₇) h₉.valid _)
      fun latch s₁₀ h₁₀ _ => ?_
    refine Steps.bind (addEdge_steps _ _ _ _ _ _ h₁₀.valid) fun _ s₁₁ h₁₁ => ?_
    refine Steps.bind (addEdge_steps _ _ _ _ _ _ h₁₁.valid) fun _ s₁₂ h₁₂ => ?_
    refine Steps.bind (buildSequence_steps hplaced body _ _ s₁₂
      (fun e he => hroots e (List.mem_cons_of_mem _ he)) h₁₂.valid) fun ends s₁₃ h₁₃ => ?_
    refine Steps.bind (insertHazards_steps hazards ends h₁₃.valid) fun ends s₁₄ h₁₄ => ?_
    refine Steps.bind (connectPoints_steps ends predicate h₁₄.valid) fun _ s₁₅ h₁₅ => ?_
    exact Steps.pure h₁₅.valid
  | .forLoop span counter start stop byStep body, loop, points, s, hroots, h => by
    rw [Statement.roots] at hroots
    have hcounter := hroots counter (by simp)
    have hstart := hroots start (by simp)
    have hstop := hroots stop (by simp)
    have hbyStep : ∀ step, byStep = some step → step ∈ roots := by
      intro step hstep
      apply hroots
      simp [hstep]
    have hbody : ∀ e ∈ rootsOf body, e ∈ roots := by
      intro e he
      apply hroots
      simp [he]
    refine Steps.bind_of (expression_step hplaced h (mem_nodesOfAll hcounter))
      fun counterId s₁ h₁ hreg => ?_
    have hcounterAt := located_of_registered hcounter hreg.2
    refine Steps.bind (expression_steps hplaced h₁.valid hstart) fun startId s₂ h₂ => ?_
    refine Steps.bind_of (conditionHazards_step hplaced a _ hstop h₂.valid) fun points s₃ h₃ hreg => ?_
    have hstopAt := located_of_registered hstop hreg
    refine branches_steps hplaced hstop h₃.valid hstopAt
      (fun _ h => forConditionExpression_steps hplaced h.valid hcounter hstop hbyStep)
      fun predicate enter exit s₄ h₄ hpredicate => ?_
    refine Steps.bind_of (addLoopBack_step hpredicate h₄.valid _) fun latch s₅ h₅ _ => ?_
    refine Steps.bind (buildSequence_steps hplaced body _ _ s₅ hbody h₅.valid) fun ends s₆ h₆ => ?_
    refine Steps.bind (connectPoints_steps ends latch h₆.valid) fun _ s₇ h₇ => ?_
    have h₃₇ := h₄.trans (h₅.trans (h₆.trans h₇))
    have hcounterAt₇ := (h₂.trans (h₃.trans h₃₇)).located hcounterAt
    cases byStep with
    | none =>
      refine Steps.bind (syntheticExpression_steps h₇.valid (h₃₇.located hstopAt) _ _ _) fun step s₈ h₈ => ?_
      have hcounterAt₈ := h₈.located hcounterAt₇
      refine Steps.bind (syntheticExpression_steps h₈.valid hcounterAt₈ _ _ _) fun _ s₉ h₉ => ?_
      refine Steps.bind (addEdge_steps _ _ _ _ _ _ h₉.valid) fun _ s₁₀ h₁₀ => ?_
      exact Steps.pure h₁₀.valid
    | some step =>
      refine Steps.bind (expression_steps hplaced h₇.valid (hbyStep step rfl)) fun step s₈ h₈ => ?_
      have hcounterAt₈ := h₈.located hcounterAt₇
      refine Steps.bind (syntheticExpression_steps h₈.valid hcounterAt₈ _ _ _) fun _ s₉ h₉ => ?_
      refine Steps.bind (addEdge_steps _ _ _ _ _ _ h₉.valid) fun _ s₁₀ h₁₀ => ?_
      exact Steps.pure h₁₀.valid
  | .exitLoop span, loop, points, s, _, h | .continueLoop span, loop, points, s, _, h => by
    cases loop with
    | none => exact Steps.bind (addDiagnostic_steps _ h) fun _ s₁ h₁ => Steps.pure h₁.valid
    | some context =>
      exact Steps.bind (addLoopControl_steps _ _ _ _ _ h) fun _ s₁ h₁ => Steps.pure h₁.valid
  | .returnPou span, loop, points, s, _, h =>
    Steps.bind (addLoopControl_steps _ _ _ _ _ h) fun _ s₁ h₁ => Steps.pure h₁.valid
  | .assignment span left right, _, points, s, hroots, h =>
    buildSimple_steps hplaced a (.assignment span left right) points hroots h
  | .call call, _, points, s, hroots, h => buildSimple_steps hplaced a (.call call) points hroots h
  | .allocation span name typeName, _, points, s, hroots, h =>
    buildSimple_steps hplaced a (.allocation span name typeName) points hroots h
  | .empty span, _, points, s, hroots, h => buildSimple_steps hplaced a (.empty span) points hroots h
  | .preserved span astKind, _, points, s, hroots, h =>
    buildSimple_steps hplaced a (.preserved span astKind) points hroots h

theorem buildSequence_steps (hplaced : Placed roots) : ∀ (statements : List Statement) (loop : Option LoopContext)
    (points : List FlowPoint) (s : Builder), (∀ e ∈ rootsOf statements, e ∈ roots) → Valid roots s →
    Steps roots (buildSequence a returnTarget loop statements points) s
  | [], _, _, s, _, h => Steps.pure h
  | statement :: rest, loop, points, s, hroots, h => by
    rw [rootsOf] at hroots
    refine Steps.bind (buildStatement_steps hplaced statement loop points s
      (fun e he => hroots e (List.mem_append_left _ he)) h) fun points s₁ h₁ => ?_
    exact buildSequence_steps hplaced rest loop points s₁
      (fun e he => hroots e (List.mem_append_right _ he)) h₁.valid

theorem buildIfBlocks_steps (hplaced : Placed roots) : ∀ (blocks : List ConditionalBlock) (loop : Option LoopContext)
    (index : ℕ) (hasElse : Bool) (points : List FlowPoint) (s : Builder),
    (∀ e ∈ rootsOfBlocks (fun condition => [condition]) blocks, e ∈ roots) → Valid roots s →
    Steps roots (buildIfBlocks a returnTarget loop index hasElse blocks points) s
  | [], _, _, _, _, s, _, h => Steps.pure h
  | ⟨condition, body⟩ :: rest, loop, index, hasElse, points, s, hroots, h => by
    rw [rootsOfBlocks] at hroots
    have hcondition := hroots condition (by simp)
    refine Steps.bind_of (conditionHazards_step hplaced a points hcondition h)
      fun points s₁ h₁ hreg => ?_
    refine branches_steps hplaced hcondition h₁.valid (located_of_registered hcondition hreg)
      (fun _ h => expression_steps hplaced h.valid hcondition) fun predicate whenTrue whenFalse s₂ h₂ hpredicate => ?_
    refine Steps.bind (buildSequence_steps hplaced body loop _ s₂
      (fun e he => hroots e (List.mem_append_right _ (List.mem_append_left _ he))) h₂.valid)
      fun ends s₃ h₃ => ?_
    have hrest : ∀ e ∈ rootsOfBlocks (fun condition => [condition]) rest, e ∈ roots :=
      fun e he => hroots e (List.mem_append_right _ (List.mem_append_right _ he))
    apply Steps.ite
    · intro _
      refine Steps.bind_of (addStructuralElse_step (h₃.mem_nodeIds hpredicate) h₃.valid _) fun elseEntry s₄ h₄ _ => ?_
      refine Steps.bind (addEdge_steps _ _ _ _ _ _ h₄.valid) fun _ s₅ h₅ => ?_
      refine Steps.bind (Steps.pure h₅.valid) fun falsePoint s₆ h₆ => ?_
      refine Steps.bind (buildIfBlocks_steps hplaced rest loop _ hasElse _ s₆ hrest h₆.valid) fun _ s₇ h₇ => ?_
      exact Steps.pure h₇.valid
    · intro _
      refine Steps.bind (Steps.pure h₃.valid) fun falsePoint s₄ h₄ => ?_
      refine Steps.bind (buildIfBlocks_steps hplaced rest loop _ hasElse _ s₄ hrest h₄.valid) fun _ s₅ h₅ => ?_
      exact Steps.pure h₅.valid

theorem buildCaseBlocks_steps (hplaced : Placed roots) : ∀ (blocks : List ConditionalBlock) (loop : Option LoopContext)
    (predicate : NodeId) (selector : TypedExpression) (blockIndex : ℕ) (s : Builder),
    (∀ e ∈ rootsOfBlocks caseLabels blocks, e ∈ roots) → Valid roots s → predicate ∈ s.nodeIds →
    Steps roots (buildCaseBlocks a returnTarget loop predicate selector blockIndex blocks) s
  | [], _, _, _, _, s, _, h, _ => Steps.pure h
  | ⟨condition, body⟩ :: rest, loop, predicate, selector, blockIndex, s, hroots, h, hpredicate => by
    rw [rootsOfBlocks] at hroots
    refine Steps.bind (buildLabels_steps hplaced selector
      (fun outcome s' h' => buildSequence_steps hplaced body loop _ s'
        (fun e he => hroots e (List.mem_append_right _ (List.mem_append_left _ he))) h')
      (caseLabels condition) (fun e he => hroots e (List.mem_append_left _ he)) _ h hpredicate)
      fun _ s₁ h₁ => ?_
    refine Steps.bind (buildCaseBlocks_steps hplaced rest loop predicate selector (blockIndex + 1) s₁
      (fun e he => hroots e (List.mem_append_right _ (List.mem_append_right _ he))) h₁.valid
      (h₁.mem_nodeIds hpredicate)) fun _ s₂ h₂ => ?_
    exact Steps.pure h₂.valid

end

end

/-! ## Units -/

theorem addCycleNode_added (kind : NodeKind) (role : OutcomeRole) (span : SourceSpan) (s : Builder) :
    After (addCycleNode kind role span) s
      (NodeAdded { kind, source := some span, outcome := some { role } } 0 none s) := addNode_eq _ _ _ s

theorem buildFrame_steps (pou : Pou) : Steps pou.roots (buildFrame pou) {} := by
  have hvalid := valid_empty pou.roots
  refine After.bind (registerExpressions_spec pou.placed pou.initialValues {} hvalid.registry
    fun e he => ?_) fun _ s₁ h₁ => ?_
  · rw [nodesOfAll_append]
    exact List.mem_append_left _ he
  · have h₁ := h₁.step hvalid
    refine After.bind (addNode_eq _ _ _ s₁) fun entry s₂ h₂ => ?_
    have hentry := h₁.valid.step_of_node rfl (by simp) h₂ (Linked.refl s₂)
      (by simp [Node.targetIds, Node.targetKinds, h₂.id_eq])
    refine After.bind (addNode_eq _ _ _ s₂) fun exit s₃ h₃ => ?_
    have hexit := hentry.valid.step_of_node rfl (by simp) h₃ (Linked.refl s₃)
      (by simp [Node.targetIds, Node.targetKinds, h₃.id_eq])
    have h₀₃ := h₁.trans (hentry.trans hexit)
    apply After.ite
    · intro _
      refine After.bind (addCycleNode_added .cycleEntry .cycleEntry pou.span s₃)
        fun cycleEntry s₄ h₄ => ?_
      refine After.bind (addCycleNode_added .cycleExit .cycleExit pou.span s₄)
        fun cycleExit s₅ h₅ => ?_
      refine After.bind (addEdge_linked _ _ _ _ _ _ s₅) fun _ s₆ h₆ => ?_
      refine After.bind (addTarget_linked _ _ _ s₆) fun _ s₇ h₇ => ?_
      refine After.bind (addTarget_linked _ _ _ s₇) fun _ s₈ h₈ => ?_
      refine After.bind (addEdge_linked _ _ _ _ _ _ s₈) fun _ s₉ h₉ => ?_
      refine After.bind (addEdge_linked _ _ _ _ _ _ s₉) fun _ s₁₀ h₁₀ => ?_
      have hlinked := h₆.trans (h₇.trans (h₈.trans (h₉.trans h₁₀)))
      have hcycleEntry := h₀₃.valid.grows_of_node rfl (by simp) h₄
      have hcycleExit := hcycleEntry.valid.grows_of_node rfl (by simp) h₅
      let nodes : List Node := [⟨cycleEntry, some { role := .cycleEntry }, none⟩,
        ⟨cycleExit, some { role := .cycleExit }, none⟩]
      let targets : List Target := [⟨⟨.cycle, cycleEntry⟩, some .cycleEntry⟩,
        ⟨⟨.cycle, cycleExit⟩, some .cycleExit⟩]
      refine After.pure (h₀₃.trans ⟨hcycleEntry.trans (hcycleExit.trans
        (hcycleExit.valid.grows_of_linked hlinked)), nodes, targets, ?_, ?_, ?_⟩)
      · rw [hlinked.nodes, h₅.nodes, h₄.nodes, List.append_assoc]
        rfl
      · rw [hlinked.targets_eq, h₅.targets, h₄.targets]
        rfl
      · simp [nodes, targets, Node.targetIds, Node.targetKinds, h₄.id_eq, h₅.id_eq]
    · intro _
      exact After.pure h₀₃

theorem build_steps (a : Annotations) (pou : Pou) : Steps pou.roots (build a pou) {} := by
  refine Steps.bind (buildFrame_steps pou) fun r s₁ h₁ => ?_
  refine Steps.bind (buildSequence_steps a r.2 pou.placed pou.statements none _ s₁
    (fun e he => List.mem_append_right _ he) h₁.valid) fun ends s₂ h₂ => ?_
  exact connectPoints_steps ends r.2 h₂.valid

theorem graphOf_step (a : Annotations) (pou : Pou) : Step pou.roots {} (graphOf a pou) :=
  (build_steps a pou).run

end SemantiST.Stg
