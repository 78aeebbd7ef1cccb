import SemantiST.Stg.Statements

/-!
# The operations on the edges of a graph

Every operation on an edge comes from a statement of the body: an assignment stores a value made of the
expressions of the body, and is recorded under the name of its target.
-/

namespace SemantiST.Stg

open Lib Semantic

mutual

/-- The expressions of the unit that an expression is made of. -/
def TypedExpression.sources : TypedExpression → List AstExpr
  | .source e => [e]
  | .synthetic _ _ _ operands => sourcesOfAll operands

def sourcesOfAll : List TypedExpression → List AstExpr
  | [] => []
  | e :: es => e.sources ++ sourcesOfAll es

end

/-- The operations that the builder makes of some expressions. -/
inductive Made (roots : List AstExpr) : TransferOperation → Prop where
  | assign {target : AstExpr} {value : TypedExpression} (conversion : Option TypeConversion)
      (htarget : target ∈ roots) (hvalue : ∀ e ∈ value.sources, e ∈ roots) :
      Made roots (.assign target (expressionVariableName target) value conversion)
  | call {e : AstExpr} (he : e ∈ roots) : Made roots (.call e)
  | return : Made roots .return
  | allocation (name typeName : Text) : Made roots (.allocation name typeName)
  | opaqueStep (astKind : Text) : Made roots (.opaqueStep astKind)

variable {roots : List AstExpr} {s s' s'' : Builder}

/-- What is on the edges comes from the expressions. -/
def Carries (roots : List AstExpr) (links : List Link) : Prop :=
  ∀ link ∈ links, ∀ operations, link.transfer = some operations →
    ∀ operation ∈ operations, Made roots operation

/-- What is still to be put on an edge comes from the expressions. -/
def Laden (roots : List AstExpr) (points : List FlowPoint) : Prop :=
  ∀ point ∈ points, ∀ operation ∈ point.summary, Made roots operation

/-- No other operations are put on the edges. -/
def Keeps (roots : List AstExpr) (s s' : Builder) : Prop := Carries roots s.links → Carries roots s'.links

theorem Keeps.trans (h : Keeps roots s s') (h' : Keeps roots s' s'') : Keeps roots s s'' :=
  fun hs => h' (h hs)

theorem carries_append {links links' : List Link} :
    Carries roots (links ++ links') ↔ Carries roots links ∧ Carries roots links' :=
  List.forall_mem_append

theorem laden_append {points points' : List FlowPoint} :
    Laden roots (points ++ points') ↔ Laden roots points ∧ Laden roots points' :=
  List.forall_mem_append

theorem laden_fresh (node : NodeId) : Laden roots [⟨node, []⟩] := by
  intro point hpoint operation hoperation
  rw [List.mem_singleton.1 hpoint] at hoperation
  cases hoperation

theorem carries_points {points : List FlowPoint} (h : Laden roots points) (target : NodeId) :
    Carries roots (points.map (Link.control · target)) := by
  intro link hlink operations htransfer
  obtain ⟨point, hpoint, rfl⟩ := List.mem_map.1 hlink
  cases htransfer
  exact h point hpoint

theorem carries_fresh (node target : NodeId) : Carries roots [Link.control ⟨node, []⟩ target] :=
  carries_points (laden_fresh node) target

theorem carries_evaluation (source target : NodeId) (guard : TypedExpression) :
    Carries roots [.evaluation source target guard] := by
  intro link hlink operations htransfer
  rw [List.mem_singleton.1 hlink] at htransfer
  cases htransfer

theorem laden_applyOperation {points : List FlowPoint} {operation : TransferOperation}
    (h : Laden roots points) (hmade : Made roots operation) :
    Laden roots (points.map (FlowPoint.applyOperation operation)) := by
  intro point' hpoint' operation' hoperation'
  obtain ⟨point, hpoint, rfl⟩ := List.mem_map.1 hpoint'
  rcases List.mem_append.1 hoperation' with hmem | hmem
  · exact h point hpoint operation' hmem
  · rw [List.mem_singleton.1 hmem]
    exact hmade

theorem SameGraph.keeps (h : SameGraph s s') : Keeps roots s s' := by
  intro hs
  rw [Builder.links, h.edges]
  exact hs

theorem Adds.keeps {nodes : List Node} {links : List Link} {marks : List (SourceSpan × NodeId)}
    (h : Adds nodes links marks s s') (hlinks : Carries roots links) : Keeps roots s s' := by
  intro hs
  rw [h.links_eq, carries_append]
  exact ⟨hs, hlinks⟩

theorem Splice.keeps {points points' : List FlowPoint} {hazards : List HazardCandidate}
    (h : Splice points hazards points' s s') (hladen : Laden roots points) :
    Laden roots points' ∧ Keeps roots s s' := by
  induction h with
  | nil => exact ⟨hladen, id⟩
  | @cons points points' hazard hazards node s s₁ s' _ hadds _ ih =>
    obtain ⟨hladen', hkeeps⟩ := ih (laden_fresh node)
    exact ⟨hladen', (hadds.keeps (carries_points hladen node)).trans hkeeps⟩

theorem Conditioned.keeps {a : Annotations} {condition : AstExpr} {points points' : List FlowPoint}
    (h : Conditioned a condition points s points' s') (hladen : Laden roots points) :
    Laden roots points' ∧ Keeps roots s s' := by
  obtain ⟨s₁, hazards, s₂, hsame, -, hsame', hsplice⟩ := h
  obtain ⟨hladen', hkeeps⟩ := hsplice.keeps hladen
  exact ⟨hladen', hsame.keeps.trans (hsame'.keeps.trans hkeeps)⟩

theorem Branches.carries {predicate whenTrue whenFalse : NodeId} {guard : TypedExpression}
    {links : List Link} (h : Branches predicate whenTrue whenFalse guard links) :
    Carries roots links := by
  obtain ⟨negated, -, rfl⟩ := h
  exact carries_append.2 ⟨carries_evaluation predicate whenTrue guard,
    carries_evaluation predicate whenFalse negated⟩

theorem Forked.keeps {span : SourceSpan} {points : List FlowPoint} {guard : TypedExpression}
    {predicate whenTrue whenFalse : NodeId}
    (h : Forked span points guard s predicate whenTrue whenFalse s') (hladen : Laden roots points) :
    Keeps roots s s' := by
  obtain ⟨nodes, branches, -, hbranches, hadds⟩ := h.adds
  exact hadds.keeps (carries_append.2 ⟨carries_points hladen predicate, hbranches.carries⟩)

theorem Latched.keeps {span : SourceSpan} {predicate latch : NodeId} {links : List Link}
    (h : Latched span predicate latch links s s') (hlinks : Carries roots links) : Keeps roots s s' := by
  obtain ⟨node, -, -, hadds⟩ := h
  exact hadds.keeps hlinks

theorem Jumped.keeps {points : List FlowPoint} {target : NodeId} (h : Jumped points target s s')
    (hladen : Laden roots points) : Keeps roots s s' := by
  obtain ⟨id, node, -, -, hadds⟩ := h
  exact hadds.keeps (carries_append.2 ⟨carries_points hladen id, carries_fresh id target⟩)

theorem Repeated.keeps {span : SourceSpan} {condition : AstExpr} {points : List FlowPoint}
    {predicate enter exit latch : NodeId}
    (h : Repeated span condition points s predicate enter exit latch s') (hladen : Laden roots points) :
    Keeps roots s s' := by
  obtain ⟨again, nodes, branches, -, -, hbranches, hadds⟩ := h.adds
  refine hadds.keeps (carries_append.2 ⟨carries_append.2 ⟨carries_points hladen enter,
    hbranches.carries⟩, ?_⟩)
  exact carries_append.2 ⟨carries_fresh again latch, carries_fresh latch enter⟩

theorem IsIncrement.sources {counter : AstExpr} {byStep : Option AstExpr} {increment : TypedExpression}
    (h : IsIncrement counter byStep increment) : increment.sources = counter :: byStep.toList := by
  cases byStep with
  | none =>
    obtain ⟨id, l, r, rfl, rfl, ⟨id', rfl⟩⟩ := h
    rfl
  | some step =>
    obtain ⟨id, l, r, rfl, rfl, rfl⟩ := h
    rfl

/-! ## Statements -/

variable (a : Annotations) (returnTarget : NodeId)

/-- What holds whatever is reported. -/
theorem reportWhen_of {β : Type} {c : Prop} [Decidable c] {candidate : HazardCandidate}
    {f : List HazardCandidate → BuildM β} {Q : β → Builder → Prop} (hf : ∀ hazards s, After (f hazards) s Q)
    (s : Builder) : After (if c then reportHazard candidate >>= f else f []) s Q :=
  After.ite (fun _ => After.bind (After.ran _ s) fun hazards s' _ => hf hazards s') fun _ => hf [] s

theorem summarizeStatement_made (statement : Statement) (hroots : ∀ e ∈ statement.roots, e ∈ roots)
    (s : Builder) :
    After (summarizeStatement a statement) s fun result _ =>
      ∀ operation, result.1 = some operation → Made roots operation := by
  cases statement with
  | assignment span left right =>
    rw [Statement.roots] at hroots
    refine After.bind (expression_same left s) fun target s₁ h₁ => ?_
    refine After.bind (expression_same right s₁) fun value s₂ h₂ => ?_
    obtain rfl := h₂.1
    refine After.bind (After.ran _ s₂) fun hazards s₃ _ => ?_
    refine reportWhen_of (fun output s₄ => reportWhen_of (fun narrowing s₅ => After.pure ?_) s₄) s₃
    intro operation hoperation
    cases hoperation
    exact .assign _ (hroots left (by simp)) fun e he => by
      rw [List.mem_singleton.1 he]
      exact hroots right (by simp)
  | call call =>
    rw [Statement.roots] at hroots
    intro operation hoperation
    cases hoperation
    exact .call (hroots call (by simp))
  | allocation span name typeName =>
    intro operation hoperation
    cases hoperation
    exact .allocation name typeName
  | preserved span astKind =>
    intro operation hoperation
    cases hoperation
    exact .opaqueStep astKind
  | _ =>
    intro operation hoperation
    cases hoperation

theorem buildSimple_keeps (statement : Statement) (hroots : ∀ e ∈ statement.roots, e ∈ roots)
    {points : List FlowPoint} (hladen : Laden roots points) (s : Builder) :
    After (buildSimple a statement points) s fun ends s' => Laden roots ends ∧ Keeps roots s s' := by
  refine After.mono (buildSimple_spec a statement points s) fun ends s' h => ?_
  obtain ⟨operation, hazards, s₁, points', hrun, hsame, hsplice, rfl⟩ := h
  have hmade := (summarizeStatement_made a statement hroots s).of_run hrun
  obtain ⟨hladen', hkeeps⟩ := hsplice.keeps hladen
  refine ⟨?_, hsame.keeps.trans hkeeps⟩
  cases operation with
  | none => exact hladen'
  | some operation => exact laden_applyOperation hladen' (hmade operation rfl)

theorem buildLabels_keeps {predicate : NodeId} {selector : TypedExpression}
    {buildBody : NodeId → BuildM (List FlowPoint)}
    (hbody : ∀ outcome s, After (buildBody outcome) s fun ends s' => Laden roots ends ∧ Keeps roots s s')
    (labels : List AstExpr) (ordinal : ℕ) (s : Builder) :
    After (buildLabels predicate selector buildBody ordinal labels) s fun result s' =>
      Laden roots result.1 ∧ Keeps roots s s' := by
  induction labels generalizing ordinal s with
  | nil => exact After.pure ⟨by simp [Laden], id⟩
  | cons label labels ih =>
    refine After.mono (label_spec predicate selector buildBody ordinal label labels s)
      fun result s' h => ?_
    obtain ⟨guard, outcome, s₁, bodyEnds, s₂, result', -, -, ⟨node, -, hadds⟩, -, hrun, hrun', rfl⟩ := h
    obtain ⟨hends, hkeeps⟩ := (hbody outcome s₁).of_run hrun
    obtain ⟨hends', hkeeps'⟩ := (ih (ordinal + 1) s₂).of_run hrun'
    exact ⟨laden_append.2 ⟨hends, hends'⟩,
      (hadds.keeps (carries_evaluation predicate outcome guard)).trans (hkeeps.trans hkeeps')⟩

mutual

theorem buildStatement_keeps : ∀ (statement : Statement) (loop : Option LoopContext)
    (points : List FlowPoint) (s : Builder), (∀ e ∈ statement.roots, e ∈ roots) → Laden roots points →
    After (buildStatement a returnTarget loop statement points) s fun ends s' =>
      Laden roots ends ∧ Keeps roots s s'
  | .ifs span blocks elseBlock, loop, points, s, hroots, hladen => by
    rw [Statement.roots] at hroots
    refine After.mono (ifs_spec a returnTarget loop span blocks elseBlock points s) fun ends s' h => ?_
    obtain ⟨result, s₁, elseEnds, hblocks, helse, rfl⟩ := h
    obtain ⟨hcompleted, hfalse, hkeeps⟩ := (buildIfBlocks_keeps blocks loop 0 _ points s
      (fun e he => hroots e (List.mem_append_left _ he)) hladen).of_run hblocks
    obtain ⟨helse', hkeeps'⟩ := (buildSequence_keeps elseBlock loop result.2 s₁
      (fun e he => hroots e (List.mem_append_right _ he)) hfalse).of_run helse
    exact ⟨laden_append.2 ⟨hcompleted, helse'⟩, hkeeps.trans hkeeps'⟩
  | .cases span selector blocks elseBlock, loop, points, s, hroots, hladen => by
    rw [Statement.roots] at hroots
    refine After.mono (cases_spec a returnTarget loop span selector blocks elseBlock points s)
      fun ends s' h => ?_
    obtain ⟨points', s₁, predicate, s₂, result, s₃, default, s₄, elseEnds, hconditioned, -, hadds, -,
      hblocks, ⟨node, guard, -, -, -, hdefault, -⟩, helse, rfl⟩ := h
    obtain ⟨hladen', h₁⟩ := hconditioned.keeps hladen
    have h₂ := hadds.keeps (carries_points hladen' predicate)
    obtain ⟨hends, h₃⟩ := (buildCaseBlocks_keeps blocks loop predicate _ 0 s₂
      (fun e he => hroots e (List.mem_cons_of_mem _ (List.mem_append_left _ he)))).of_run hblocks
    have h₄ := hdefault.keeps (@carries_evaluation roots predicate default guard)
    obtain ⟨hends', h₅⟩ := (buildSequence_keeps elseBlock loop _ s₄
      (fun e he => hroots e (List.mem_cons_of_mem _ (List.mem_append_right _ he)))
      (laden_fresh default)).of_run helse
    exact ⟨laden_append.2 ⟨hends, hends'⟩, h₁.trans (h₂.trans (h₃.trans (h₄.trans h₅)))⟩
  | .whileLoop span condition body, loop, points, s, hroots, hladen => by
    rw [Statement.roots] at hroots
    refine After.mono (whileLoop_spec a returnTarget loop span condition body points s)
      fun ends s' h => ?_
    obtain ⟨points', s₁, predicate, enter, exit, s₂, bodyEnds, s₃, latch, hconditioned, hforked, hbody,
      hlatched, rfl⟩ := h
    obtain ⟨hladen', h₁⟩ := hconditioned.keeps hladen
    obtain ⟨hends, h₃⟩ := (buildSequence_keeps body _ _ s₂
      (fun e he => hroots e (List.mem_cons_of_mem _ he)) (laden_fresh enter)).of_run hbody
    have h₄ := hlatched.keeps (carries_append.2 ⟨carries_points hends latch, carries_fresh latch predicate⟩)
    exact ⟨laden_fresh exit, h₁.trans ((hforked.keeps hladen').trans (h₃.trans h₄))⟩
  | .repeatLoop span condition body, loop, points, s, hroots, hladen => by
    rw [Statement.roots] at hroots
    refine After.mono (repeatLoop_spec a returnTarget loop span condition body points s)
      fun ends s' h => ?_
    obtain ⟨s₀, hazards, s₁, predicate, enter, exit, latch, s₂, bodyEnds, s₃, bodyEnds', s₄, hsame, -,
      hsame', hrepeated, hbody, hsplice, hadds, rfl⟩ := h
    obtain ⟨hends, h₃⟩ := (buildSequence_keeps body _ _ s₂
      (fun e he => hroots e (List.mem_cons_of_mem _ he)) (laden_fresh enter)).of_run hbody
    obtain ⟨hends', h₄⟩ := hsplice.keeps hends
    have h₅ := hadds.keeps (carries_points hends' predicate)
    exact ⟨laden_fresh exit, (hsame.trans hsame').keeps.trans ((hrepeated.keeps hladen).trans
      (h₃.trans (h₄.trans h₅)))⟩
  | .forLoop span counter start stop byStep body, loop, points, s, hroots, hladen => by
    rw [Statement.roots] at hroots
    refine After.mono (forLoop_spec a returnTarget loop span counter start stop byStep body points s)
      fun ends s' h => ?_
    obtain ⟨s₀, points', s₁, predicate, enter, exit, guard, s₂, latch, s₃, bodyEnds, s₄, increment,
      hsame, hconditioned, -, hforked, hlatched, hbody, hincrement, hadds, rfl⟩ := h
    have hcounter : counter ∈ roots := hroots counter (by simp)
    have hinit : Made roots (.assign counter (expressionVariableName counter) (.source start)
        (a.conversionFor counter start)) := .assign _ hcounter fun e he => by
      rw [List.mem_singleton.1 he]
      exact hroots start (by simp)
    have hstep : Made roots (.assign counter (expressionVariableName counter) increment none) :=
      .assign _ hcounter fun e he => by
        rw [hincrement.sources] at he
        rcases List.mem_cons.1 he with rfl | he
        · exact hcounter
        · exact hroots e (by simp [he])
    obtain ⟨hladen', h₁⟩ := hconditioned.keeps (laden_applyOperation hladen hinit)
    have h₂ := hlatched.keeps (show Carries roots [] by simp [Carries])
    obtain ⟨hends, h₃⟩ := (buildSequence_keeps body _ _ s₃
      (fun e he => hroots e (by simp [he])) (laden_fresh enter)).of_run hbody
    have hlast : Laden roots [⟨latch, [.assign counter (expressionVariableName counter) increment none]⟩] := by
      intro point hpoint operation hoperation
      rw [List.mem_singleton.1 hpoint, List.mem_singleton] at hoperation
      rw [hoperation]
      exact hstep
    have h₄ := hadds.keeps (carries_append.2 ⟨carries_points hends latch, carries_points hlast predicate⟩)
    exact ⟨laden_fresh exit, hsame.keeps.trans (h₁.trans ((hforked.keeps hladen').trans
      (h₂.trans (h₃.trans h₄))))⟩
  | .exitLoop span, loop, points, s, _, hladen => by
    cases loop with
    | none =>
      refine After.bind (addDiagnostic_same _ s) fun _ s₁ h₁ => ?_
      exact After.pure ⟨by simp [Laden], h₁.keeps⟩
    | some context =>
      refine After.bind (addLoopControl_spec _ _ _ _ _ s) fun _ s₁ h₁ => ?_
      exact After.pure ⟨by simp [Laden], h₁.keeps hladen⟩
  | .continueLoop span, loop, points, s, _, hladen => by
    cases loop with
    | none =>
      refine After.bind (addDiagnostic_same _ s) fun _ s₁ h₁ => ?_
      exact After.pure ⟨by simp [Laden], h₁.keeps⟩
    | some context =>
      refine After.bind (addLoopControl_spec _ _ _ _ _ s) fun _ s₁ h₁ => ?_
      exact After.pure ⟨by simp [Laden], h₁.keeps hladen⟩
  | .returnPou span, loop, points, s, _, hladen => by
    refine After.bind (addLoopControl_spec _ _ _ _ _ s) fun _ s₁ h₁ => ?_
    exact After.pure ⟨by simp [Laden], h₁.keeps (laden_applyOperation hladen .return)⟩
  | .assignment span left right, _, points, s, hroots, hladen =>
    buildSimple_keeps a (.assignment span left right) hroots hladen s
  | .call call, _, points, s, hroots, hladen => buildSimple_keeps a (.call call) hroots hladen s
  | .allocation span name typeName, _, points, s, hroots, hladen =>
    buildSimple_keeps a (.allocation span name typeName) hroots hladen s
  | .empty span, _, points, s, hroots, hladen => buildSimple_keeps a (.empty span) hroots hladen s
  | .preserved span astKind, _, points, s, hroots, hladen =>
    buildSimple_keeps a (.preserved span astKind) hroots hladen s

theorem buildSequence_keeps : ∀ (statements : List Statement) (loop : Option LoopContext)
    (points : List FlowPoint) (s : Builder), (∀ e ∈ rootsOf statements, e ∈ roots) → Laden roots points →
    After (buildSequence a returnTarget loop statements points) s fun ends s' =>
      Laden roots ends ∧ Keeps roots s s'
  | [], _, _, s, _, hladen => After.pure ⟨hladen, id⟩
  | statement :: rest, loop, points, s, hroots, hladen => by
    rw [rootsOf] at hroots
    refine After.bind (buildStatement_keeps statement loop points s
      (fun e he => hroots e (List.mem_append_left _ he)) hladen) fun points₁ s₁ h₁ => ?_
    refine After.mono (buildSequence_keeps rest loop points₁ s₁
      (fun e he => hroots e (List.mem_append_right _ he)) h₁.1) fun _ s₂ h₂ => ?_
    exact ⟨h₂.1, h₁.2.trans h₂.2⟩

theorem buildIfBlocks_keeps : ∀ (blocks : List ConditionalBlock) (loop : Option LoopContext)
    (index : ℕ) (hasElse : Bool) (points : List FlowPoint) (s : Builder),
    (∀ e ∈ rootsOfBlocks (fun condition => [condition]) blocks, e ∈ roots) → Laden roots points →
    After (buildIfBlocks a returnTarget loop index hasElse blocks points) s fun result s' =>
      Laden roots result.1 ∧ Laden roots result.2 ∧ Keeps roots s s'
  | [], _, _, _, _, s, _, hladen => After.pure ⟨by simp [Laden], hladen, id⟩
  | ⟨condition, body⟩ :: rest, loop, index, hasElse, points, s, hroots, hladen => by
    rw [rootsOfBlocks] at hroots
    refine After.mono (ifBlock_spec a returnTarget loop index hasElse condition body rest points s)
      fun result s' h => ?_
    obtain ⟨points', s₁, predicate, whenTrue, whenFalse, s₂, bodyEnds, s₃, falsePoint, s₄, result',
      hconditioned, hforked, hbody, helse, hrest, rfl⟩ := h
    obtain ⟨hladen', h₁⟩ := hconditioned.keeps hladen
    obtain ⟨hends, h₃⟩ := (buildSequence_keeps body loop _ s₂
      (fun e he => hroots e (List.mem_append_right _ (List.mem_append_left _ he)))
      (laden_fresh whenTrue)).of_run hbody
    have h₄ : Keeps roots s₃ s₄ := by
      rcases helse with ⟨-, rfl⟩ | ⟨node, -, -, hadds⟩
      · exact id
      · exact hadds.keeps (carries_fresh whenFalse falsePoint)
    obtain ⟨hcompleted, hfalse, h₅⟩ := (buildIfBlocks_keeps rest loop _ hasElse _ s₄
      (fun e he => hroots e (List.mem_append_right _ (List.mem_append_right _ he)))
      (laden_fresh falsePoint)).of_run hrest
    exact ⟨laden_append.2 ⟨hends, hcompleted⟩, hfalse,
      h₁.trans ((hforked.keeps hladen').trans (h₃.trans (h₄.trans h₅)))⟩

theorem buildCaseBlocks_keeps : ∀ (blocks : List ConditionalBlock) (loop : Option LoopContext)
    (predicate : NodeId) (selector : TypedExpression) (blockIndex : ℕ) (s : Builder),
    (∀ e ∈ rootsOfBlocks caseLabels blocks, e ∈ roots) →
    After (buildCaseBlocks a returnTarget loop predicate selector blockIndex blocks) s fun result s' =>
      Laden roots result.1 ∧ Keeps roots s s'
  | [], _, _, _, _, s, _ => After.pure ⟨by simp [Laden], id⟩
  | ⟨condition, body⟩ :: rest, loop, predicate, selector, blockIndex, s, hroots => by
    rw [rootsOfBlocks] at hroots
    refine After.mono (caseBlock_spec a returnTarget loop predicate selector blockIndex condition body
      rest s) fun result s' h => ?_
    obtain ⟨result₁, s₁, result₂, hlabels, hrest, rfl⟩ := h
    obtain ⟨hends, h₁⟩ := (buildLabels_keeps (fun outcome s => buildSequence_keeps body loop _ s
      (fun e he => hroots e (List.mem_append_right _ (List.mem_append_left _ he)))
      (laden_fresh outcome)) _ _ s).of_run hlabels
    obtain ⟨hends', h₂⟩ := (buildCaseBlocks_keeps rest loop predicate selector (blockIndex + 1) s₁
      (fun e he => hroots e (List.mem_append_right _ (List.mem_append_right _ he)))).of_run hrest
    exact ⟨laden_append.2 ⟨hends, hends'⟩, h₁.trans h₂⟩

end

/-! ## Units -/

theorem buildFrame_keeps (pou : Pou) :
    After (buildFrame pou) {} fun _ s' => Keeps roots {} s' := by
  refine After.bind (registerExpressions_same pou.initialValues {}) fun _ s₁ h₁ => ?_
  refine After.bind (addNode_eq _ _ _ s₁) fun entry s₂ h₂ => ?_
  refine After.bind (addNode_eq _ _ _ s₂) fun exit s₃ h₃ => ?_
  have h₀₃ : Keeps roots {} s₃ := ((h₁.adds.trans (h₂.adds rfl)).trans (h₃.adds rfl)).keeps (by simp [Carries])
  apply After.ite
  · intro _
    refine After.bind (addNode_eq _ _ _ s₃) fun cycleEntry s₄ h₄ => ?_
    refine After.bind (addNode_eq _ _ _ s₄) fun cycleExit s₅ h₅ => ?_
    refine After.bind (addEdge_adds _ _ _ _ _ _ s₅) fun _ s₆ h₆ => ?_
    refine After.bind (addTarget_adds _ _ _ s₆) fun _ s₇ h₇ => ?_
    refine After.bind (addTarget_adds _ _ _ s₇) fun _ s₈ h₈ => ?_
    refine After.bind (addEdge_adds _ _ _ _ _ _ s₈) fun _ s₉ h₉ => ?_
    refine After.bind (addEdge_adds _ _ _ _ _ _ s₉) fun _ s₁₀ h₁₀ => ?_
    have hadds := ((((((h₄.adds rfl).trans (h₅.adds rfl)).trans h₆.1).trans h₇.1).trans h₈.1).trans
      h₉.1).trans h₁₀.1
    refine After.pure (h₀₃.trans (hadds.keeps ?_))
    intro link hlink operations htransfer operation hoperation
    simp only [List.nil_append, List.append_nil, List.cons_append, List.mem_cons, List.not_mem_nil,
      or_false] at hlink
    rcases hlink with rfl | rfl | rfl
    · cases htransfer
      cases hoperation
    · cases htransfer
      cases hoperation
    · cases htransfer
  · intro _
    exact After.pure h₀₃

/-- **The operations on the edges of a graph** come from the statements of the body. -/
theorem graphOf_made (pou : Pou) {edge : Edge} (hedge : edge ∈ (graphOf a pou).edges)
    {operations : List TransferOperation} (htransfer : edge.transfer = some operations) :
    ∀ operation ∈ operations, Made (rootsOf pou.statements) operation := by
  have hkeeps : Keeps (rootsOf pou.statements) {} (graphOf a pou) := by
    apply After.run (x := build a pou) (Q := fun _ s' => Keeps _ {} s')
    refine After.bind (@buildFrame_keeps (rootsOf pou.statements) pou) fun r s₁ h₁ => ?_
    refine After.bind (buildSequence_keeps a r.2 pou.statements none _ s₁ (fun e he => he)
      (laden_fresh r.1)) fun ends s₂ h₂ => ?_
    refine After.mono (connectPoints_adds ends r.2 s₂) fun _ s₃ h₃ => ?_
    exact h₁.trans (h₂.2.trans (h₃.1.keeps (carries_points h₂.1 r.2)))
  exact hkeeps (by simp [Carries, Builder.links]) edge.link (List.mem_map_of_mem hedge) operations htransfer

end SemantiST.Stg
