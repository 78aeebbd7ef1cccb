import SemantiST.Stg.Building
import SemantiST.Stg.Marks

/-!
# Identifiers of a graph

The identifiers of nodes, edges, expressions and targets are different exactly where no control
statement is built more than once.  A control statement in a branch with several labels is built once
for each of them; the predicates of its copies are different, but their outcomes are not.
-/

namespace SemantiST.Stg

open Lib Semantic

variable {s s' s'' : Builder}

/-! ## The check of identifiers -/

/-- The identifiers that were seen before (`check_unique`). -/
def checkUnique {α : Type} [DecidableEq α] (seen : List α) : List α → List α
  | [] => []
  | id :: ids => if id ∈ seen then id :: checkUnique seen ids else checkUnique (id :: seen) ids

inductive DuplicateId where
  | node (id : NodeId)
  | edge (id : EdgeId)
  | target (id : TargetId)

/-- The identifiers that `validate_pou` reports as duplicates. -/
def Builder.duplicateIds (s : Builder) : List DuplicateId :=
  (checkUnique [] s.nodeIds).map .node ++ (checkUnique [] (s.edges.map Edge.id)).map .edge ++
    (checkUnique [] (s.targets.map Target.id)).map .target

structure Builder.UniqueIds (s : Builder) : Prop where
  nodes : s.nodeIds.Nodup
  edges : (s.edges.map Edge.id).Nodup
  expressions : (s.expressions.map ExpressionEntry.id).Nodup
  targets : (s.targets.map Target.id).Nodup

theorem checkUnique_eq_nil {α : Type} [DecidableEq α] (seen ids : List α) :
    checkUnique seen ids = [] ↔ ids.Nodup ∧ ∀ id ∈ ids, id ∉ seen := by
  induction ids generalizing seen with
  | nil => simp [checkUnique]
  | cons id ids ih =>
    rw [checkUnique]
    split
    · rename_i hseen
      simp [hseen]
    · rename_i hseen
      rw [ih, List.nodup_cons]
      simp only [List.mem_cons, not_or, forall_eq_or_imp]
      constructor
      · rintro ⟨hnodup, hnot⟩
        exact ⟨⟨fun hmem => (hnot id hmem).1 rfl, hnodup⟩, hseen, fun id' hid' => (hnot id' hid').2⟩
      · rintro ⟨⟨hnot, hnodup⟩, -, hseen'⟩
        exact ⟨hnodup, fun id' hid' => ⟨fun heq => hnot (heq ▸ hid'), hseen' id' hid'⟩⟩

theorem duplicateIds_eq_nil (s : Builder) : s.duplicateIds = [] ↔
    s.nodeIds.Nodup ∧ (s.edges.map Edge.id).Nodup ∧ (s.targets.map Target.id).Nodup := by
  simp only [Builder.duplicateIds, List.append_eq_nil_iff, List.map_eq_nil_iff, checkUnique_eq_nil,
    List.not_mem_nil, not_false_eq_true, implies_true, and_true, and_assoc]

/-! ## Different identifiers -/

/-- Where no two predicates have outcomes or latches at one place, nodes are different. -/
theorem Counted.nodup (h : Counted s) (hsingle : ∀ span predicate predicate',
    Marked s span predicate → Marked s span predicate' → predicate = predicate') :
    s.nodeIds.Nodup := by
  obtain ⟨made, hfst, hnodup, hcount⟩ := h.made
  rw [← hfst]
  refine List.Nodup.map_on (fun m hm m' hm' heq => Prod.ext heq ?_) hnodup
  obtain ⟨c, hc, -⟩ := hcount m hm
  obtain ⟨c', hc', -⟩ := hcount m' hm'
  have hkey := h.keyed _ _ _ (by rw [hc]; exact Option.some_ne_none c)
  have hkey' := h.keyed _ _ _ (by rw [hc']; exact Option.some_ne_none c')
  rw [← heq, ← hkey] at hkey'
  cases hd : m.2 with
  | none =>
    rw [hd] at hkey'
    exact (by simpa using hkey' : m'.2 = none).symm
  | some d =>
    rw [hd] at hkey' hc
    obtain ⟨d', hd'⟩ := Option.isSome_iff_exists.1 (by simpa using hkey')
    rw [hd', ← heq] at hc'
    rw [hd', hsingle m.1.span d d' ⟨m.1.kind, by simp [hc]⟩ ⟨m.1.kind, by simp [hc']⟩]

theorem Marks.single {spans : List SourceSpan} {ok : Prop} (h : Marks spans ok {} s) (hok : ok)
    (hnodup : spans.Nodup) {span : Option SourceSpan} {predicate predicate' : NodeId}
    (hmarked : Marked s span predicate) (hmarked' : Marked s span predicate') :
    predicate = predicate' := by
  obtain ⟨⟨nodes, links, marks, hadds, -, hfunctional⟩, -⟩ := h
  have hnone : ∀ predicate, ¬Marked {} span predicate := fun predicate ⟨kind, hne⟩ => hne rfl
  obtain ⟨mark, hmark, hspan, rfl⟩ := (hadds.marked _ _ hmarked).resolve_left (hnone _)
  obtain ⟨mark', hmark', hspan', rfl⟩ := (hadds.marked _ _ hmarked').resolve_left (hnone _)
  exact hfunctional hok hnodup mark hmark mark' hmark' (Option.some.inj (hspan.symm.trans hspan'))

theorem nodup_targetKinds (node : Node) : node.targetKinds.Nodup := by
  unfold Node.targetKinds
  split
  any_goals simp
  · cases node.outcome <;> simp
  · split <;> simp

/-- The targets of different nodes are different. -/
theorem nodup_targetIds {nodes : List Node} (h : (nodes.map Node.id).Nodup) :
    (nodes.flatMap Node.targetIds).Nodup := by
  rw [List.nodup_flatMap]
  constructor
  · intro node _
    exact (nodup_targetKinds node).map fun kind kind' heq => congrArg TargetId.kind heq
  · rw [List.nodup_iff_pairwise_ne, List.pairwise_map] at h
    refine h.imp fun hne id hid hid' => hne ?_
    obtain ⟨kind, -, rfl⟩ := List.mem_map.1 hid
    obtain ⟨kind', -, heq⟩ := List.mem_map.1 hid'
    exact (congrArg TargetId.node heq).symm

theorem buildFrame_marks (pou : Pou) : After (buildFrame pou) {} fun _ s' => Marks [] True {} s' := by
  refine After.bind (registerExpressions_same pou.initialValues {}) fun _ s₁ h₁ => ?_
  refine After.bind (addNode_eq _ _ _ s₁) fun entry s₂ h₂ => ?_
  refine After.bind (addNode_eq _ _ _ s₂) fun exit s₃ h₃ => ?_
  have h₀₃ := (h₁.adds.trans (h₂.adds rfl)).trans (h₃.adds rfl)
  apply After.ite
  · intro _
    refine After.bind (addCycleNode_added .cycleEntry .cycleEntry pou.span s₃) fun _ s₄ h₄ => ?_
    refine After.bind (addCycleNode_added .cycleExit .cycleExit pou.span s₄) fun _ s₅ h₅ => ?_
    refine After.bind (addEdge_linked _ _ _ _ _ _ s₅) fun _ s₆ h₆ => ?_
    refine After.bind (addTarget_linked _ _ _ s₆) fun _ s₇ h₇ => ?_
    refine After.bind (addTarget_linked _ _ _ s₇) fun _ s₈ h₈ => ?_
    refine After.bind (addEdge_linked _ _ _ _ _ _ s₈) fun _ s₉ h₉ => ?_
    refine After.bind (addEdge_linked _ _ _ _ _ _ s₉) fun _ s₁₀ h₁₀ => ?_
    have hlinked := h₆.trans (h₇.trans (h₈.trans (h₉.trans h₁₀)))
    exact After.pure ((h₀₃.trans (h₄.adds rfl)).trans ((h₅.adds rfl).trans hlinked.adds)).unmarked
  · intro _
    exact After.pure h₀₃.unmarked

theorem graphOf_marks (a : Annotations) (pou : Pou) :
    Marks (marksOf pou.statements) (copiesIn pou.statements = false) {} (graphOf a pou) := by
  apply After.run (x := build a pou) (Q := fun _ s' => Marks _ _ {} s')
  refine After.bind (buildFrame_marks pou) fun r s₁ h₁ => ?_
  refine After.bind (buildSequence_marks a r.2 pou.statements none _ s₁) fun ends s₂ h₂ => ?_
  refine After.mono (connectPoints_adds ends r.2 s₂) fun _ s₃ h₃ => ?_
  refine (h₁.trans (h₂.trans h₃.1.unmarked)).mono ?_ fun hok => ⟨trivial, hok, trivial⟩
  rw [List.nil_append, List.append_nil]

theorem graphOf_uniqueIds (a : Annotations) (pou : Pou) (h : copiesIn pou.statements = false) :
    (graphOf a pou).UniqueIds := by
  have hstep := graphOf_step a pou
  have hmarks := graphOf_marks a pou
  have hnodes : (graphOf a pou).nodeIds.Nodup :=
    hstep.valid.counted.nodup fun span predicate predicate' => hmarks.single h pou.nodup_marks
  refine ⟨hnodes, ?_, hstep.valid.registry.nodup, ?_⟩
  · apply List.Nodup.of_map EdgeId.ordinal
    rw [List.map_map]
    exact hstep.valid.edgeOrdinals ▸ List.nodup_range
  · obtain ⟨nodes, targets, hnodes', htargets, hids⟩ := hstep.tidy
    rw [htargets, List.nil_append, hids]
    apply nodup_targetIds
    rwa [Builder.nodeIds, hnodes'] at hnodes

/-! ## Copies -/

/-- A node is made between two states. -/
def Gains (id : NodeId) (s s' : Builder) : Prop :=
  ∃ new, s'.nodeIds = s.nodeIds ++ new ∧ id ∈ new

theorem Gains.between {s₁ s₂ : Builder} {id : NodeId} (h : Gains id s₁ s₂)
    (hbefore : s.nodeIds <+: s₁.nodeIds) (hafter : s₂.nodeIds <+: s'.nodeIds) : Gains id s s' := by
  obtain ⟨new, hnew, hmem⟩ := h
  obtain ⟨before, hbefore⟩ := hbefore
  obtain ⟨rest, hrest⟩ := hafter
  refine ⟨before ++ (new ++ rest), ?_, by simp [hmem]⟩
  rw [← hrest, hnew, ← hbefore]
  simp only [List.append_assoc]

theorem Gains.mem {id : NodeId} (h : Gains id s s') : id ∈ s'.nodeIds := by
  obtain ⟨new, hnew, hmem⟩ := h
  rw [hnew]
  exact List.mem_append_right _ hmem

/-- A node that is made once more is made twice. -/
theorem Gains.not_nodup {id : NodeId} (h : Gains id s s') (hmem : id ∈ s.nodeIds) :
    ¬s'.nodeIds.Nodup := by
  obtain ⟨new, hnew, hmem'⟩ := h
  rw [hnew, List.nodup_append']
  exact fun hnodup => hnodup.2.2 hmem hmem'

theorem not_nodup_of_initial (h : ¬s.nodeIds.Nodup) (hinitial : s.nodeIds <+: s'.nodeIds) :
    ¬s'.nodeIds.Nodup := fun hnodup => h (hnodup.sublist hinitial.sublist)

theorem Adds.gains {nodes : List Node} {links : List Link} {marks : List (SourceSpan × NodeId)}
    {id : NodeId} (h : Adds nodes links marks s s') (hid : id ∈ nodes.map Node.id) : Gains id s s' :=
  ⟨_, h.nodeIds, hid⟩

theorem Forked.gains {span : SourceSpan} {points : List FlowPoint} {guard : TypedExpression}
    {predicate whenTrue whenFalse : NodeId} (hcounted : Counted s)
    (h : Forked span points guard s predicate whenTrue whenFalse s') :
    Gains ⟨.outcome, some span, 0⟩ s s' := by
  obtain ⟨nodes, branches, hplain, -, hadds⟩ := h.adds
  apply hadds.gains
  rw [← h.first hcounted]
  cases hplain with
  | cons _ hrest =>
    cases hrest with
    | cons hplain _ => simp [hplain.1]

theorem Repeated.gains {span : SourceSpan} {condition : AstExpr} {points : List FlowPoint}
    {predicate enter exit latch : NodeId} (hcounted : Counted s)
    (h : Repeated span condition points s predicate enter exit latch s') :
    Gains ⟨.outcome, some span, 0⟩ s s' := by
  obtain ⟨again, nodes, branches, hplain, -, -, hadds⟩ := h.adds
  apply hadds.gains
  rw [← h.first hcounted]
  cases hplain with
  | cons _ hrest =>
    cases hrest with
    | cons hplain _ => simp [hplain.1]

section

variable (a : Annotations) (returnTarget : NodeId)

theorem buildSequence_initial {statements : List Statement} {loop : Option LoopContext}
    {points ends : List FlowPoint}
    (hrun : (buildSequence a returnTarget loop statements points).run s = (ends, s')) :
    s.nodeIds <+: s'.nodeIds :=
  ((buildSequence_marks a returnTarget statements loop points s).of_run hrun).nodeIds

/-- The blocks of a CASE make the outcome of the first label, or there is no label. -/
theorem buildCaseBlocks_gains (blocks : List ConditionalBlock) (blockIndex : ℕ) :
    (∃ id, ∀ loop predicate selector s, predicate ∈ s.nodeIds → Unused s predicate →
      After (buildCaseBlocks a returnTarget loop predicate selector blockIndex blocks) s
        fun _ s' => Gains id s s') ∨
    ∀ loop predicate selector s,
      After (buildCaseBlocks a returnTarget loop predicate selector blockIndex blocks) s
        fun _ s' => s' = s := by
  induction blocks generalizing blockIndex with
  | nil => exact .inr fun loop predicate selector s => After.pure rfl
  | cons block rest ih =>
    obtain ⟨condition, body⟩ := block
    cases hlabels : caseLabels condition with
    | nil =>
      have hrun : ∀ predicate selector buildBody ordinal (s : Builder),
          (buildLabels predicate selector buildBody ordinal []).run s = (([], []), s) :=
        fun _ _ _ _ _ => rfl
      rcases ih (blockIndex + 1) with ⟨id, h⟩ | h
      · refine .inl ⟨id, fun loop predicate selector s hmem hunused => ?_⟩
        refine After.mono (caseBlock_spec a returnTarget loop predicate selector blockIndex condition
          body rest s) fun result s' h' => ?_
        obtain ⟨result₁, s₁, result₂, hfirst, hrest, -⟩ := h'
        rw [hlabels, hrun, Prod.mk.injEq] at hfirst
        obtain ⟨-, rfl⟩ := hfirst
        exact (h loop predicate selector s hmem hunused).of_run hrest
      · refine .inr fun loop predicate selector s => ?_
        refine After.mono (caseBlock_spec a returnTarget loop predicate selector blockIndex condition
          body rest s) fun result s' h' => ?_
        obtain ⟨result₁, s₁, result₂, hfirst, hrest, -⟩ := h'
        rw [hlabels, hrun, Prod.mk.injEq] at hfirst
        obtain ⟨-, rfl⟩ := hfirst
        exact (h loop predicate selector s).of_run hrest
    | cons label labels =>
      refine .inl ⟨⟨.outcome, some label.span, blockIndex * 1024⟩,
        fun loop predicate selector s hmem hunused => ?_⟩
      refine After.mono (caseBlock_spec a returnTarget loop predicate selector blockIndex condition
        body rest s) fun result s' h' => ?_
      obtain ⟨result₁, s₁, result₂, hfirst, hrest, -⟩ := h'
      rw [hlabels] at hfirst
      have hlabel := (label_spec predicate selector _ (blockIndex * 1024) label labels s).of_run hfirst
      obtain ⟨guard, outcome, s₂, bodyEnds, s₃, result', -, -, ⟨node, hplain, hadds⟩, hid, hbody,
        hlabels', -⟩ := hlabel
      have hmem₃ := (buildSequence_initial a returnTarget hbody).subset (hadds.mem_nodeIds hmem)
      have h₁ := (buildLabels_marks (fun outcome s => buildSequence_marks a returnTarget body loop _ s)
        labels _ s₃ hmem₃).of_run hlabels'
      have h₂ := (buildCaseBlocks_marks a returnTarget rest loop predicate selector _ s₁
        (h₁.mem_nodeIds hmem₃)).of_run hrest
      have hgains : Gains outcome s s₂ := hadds.gains (by simp [hplain.1])
      rw [hid hunused] at hgains
      exact hgains.between List.prefix_rfl
        ((buildSequence_initial a returnTarget hbody).trans (h₁.nodeIds.trans h₂.nodeIds))

mutual

/-- A control statement makes a node whose identifier does not depend on when it is built. -/
theorem buildStatement_gains : ∀ (statement : Statement), statement.controls = true →
    ∃ id, ∀ (loop : Option LoopContext) (points : List FlowPoint) (s : Builder), Counted s →
      After (buildStatement a returnTarget loop statement points) s fun _ s' => Gains id s s'
  | .ifs span [] elseBlock, h => by
    obtain ⟨id, helse⟩ := buildSequence_gains elseBlock (by simpa [Statement.controls] using h)
    refine ⟨id, fun loop points s hcounted => ?_⟩
    refine After.mono (ifs_spec a returnTarget loop span [] elseBlock points s) fun ends s' h => ?_
    obtain ⟨result, s₁, elseEnds, hblocks, hrun, -⟩ := h
    cases hblocks
    exact (helse loop points s hcounted).of_run hrun
  | .ifs span (⟨condition, body⟩ :: rest) elseBlock, _ => by
    refine ⟨⟨.outcome, some condition.span, 0⟩, fun loop points s hcounted => ?_⟩
    refine After.mono (ifs_spec a returnTarget loop span _ elseBlock points s) fun ends s' h => ?_
    obtain ⟨result, s₁, elseEnds, hblocks, hrun, -⟩ := h
    have h' := (ifBlock_spec a returnTarget loop 0 _ condition body rest points s).of_run hblocks
    obtain ⟨points', s₂, predicate, whenTrue, whenFalse, s₃, bodyEnds, s₄, falsePoint, s₅, result',
      hconditioned, hforked, hbody, helse, hrest, -⟩ := h'
    have hinitial : s₄.nodeIds <+: s₅.nodeIds := by
      rcases helse with ⟨-, rfl⟩ | ⟨node, -, -, hadds⟩
      · exact List.prefix_rfl
      · rw [hadds.nodeIds]
        exact List.prefix_append _ _
    have hrest' := ((buildIfBlocks_marks a returnTarget rest loop _ _ _ s₅).of_run hrest).nodeIds
    exact (hforked.gains (hconditioned.unmarked.counted hcounted)).between
      hconditioned.unmarked.nodeIds ((buildSequence_initial a returnTarget hbody).trans
        (hinitial.trans (hrest'.trans (buildSequence_initial a returnTarget hrun))))
  | .cases span selector blocks elseBlock, _ => by
    rcases buildCaseBlocks_gains a returnTarget blocks 0 with ⟨id, hid⟩ | hid
    · refine ⟨id, fun loop points s hcounted => ?_⟩
      refine After.mono (cases_spec a returnTarget loop span selector blocks elseBlock points s)
        fun ends s' h => ?_
      obtain ⟨points', s₁, predicate, s₂, result, s₃, default, s₄, elseEnds, hconditioned, -, hadds,
        hunused, hblocks, ⟨node, guard, -, -, -, hdefault, -⟩, hrun, -⟩ := h
      have hmem : predicate ∈ s₂.nodeIds := by simp [hadds.nodeIds]
      have hcounted₁ := hconditioned.unmarked.counted hcounted
      have hgains := (hid loop predicate _ s₂ hmem (hunused hcounted₁)).of_run hblocks
      have hdefault' := hdefault.owned_one
        (((buildCaseBlocks_marks a returnTarget blocks loop predicate _ 0 s₂ hmem).of_run
          hblocks).mem_nodeIds hmem)
      exact hgains.between (hconditioned.unmarked.trans hadds.unmarked).nodeIds
        (hdefault'.nodeIds.trans (buildSequence_initial a returnTarget hrun))
    · refine ⟨⟨.outcome, some selector.span, blocks.length * 1024⟩, fun loop points s hcounted => ?_⟩
      refine After.mono (cases_spec a returnTarget loop span selector blocks elseBlock points s)
        fun ends s' h => ?_
      obtain ⟨points', s₁, predicate, s₂, result, s₃, default, s₄, elseEnds, hconditioned, -, hadds,
        hunused, hblocks, ⟨node, guard, hplain, -, -, hdefault, hfirst⟩, hrun, -⟩ := h
      have hcounted₁ := hconditioned.unmarked.counted hcounted
      obtain rfl := (hid loop predicate _ s₂).of_run hblocks
      have hgains : Gains default s₃ s₄ := hdefault.gains (by simp [hplain.1])
      rw [hfirst (hunused hcounted₁)] at hgains
      exact hgains.between (hconditioned.unmarked.trans hadds.unmarked).nodeIds
        (buildSequence_initial a returnTarget hrun)
  | .whileLoop span condition body, _ => by
    refine ⟨⟨.outcome, some condition.span, 0⟩, fun loop points s hcounted => ?_⟩
    refine After.mono (whileLoop_spec a returnTarget loop span condition body points s)
      fun ends s' h => ?_
    obtain ⟨points', s₁, predicate, enter, exit, s₂, bodyEnds, s₃, latch, hconditioned, hforked, hbody,
      hlatched, -⟩ := h
    have hbody' := buildSequence_initial a returnTarget hbody
    have hlatched' := hlatched.marks (hbody'.subset hforked.predicate_mem)
    exact (hforked.gains (hconditioned.unmarked.counted hcounted)).between
      hconditioned.unmarked.nodeIds (hbody'.trans hlatched'.nodeIds)
  | .repeatLoop span condition body, _ => by
    refine ⟨⟨.outcome, some span, 0⟩, fun loop points s hcounted => ?_⟩
    refine After.mono (repeatLoop_spec a returnTarget loop span condition body points s)
      fun ends s' h => ?_
    obtain ⟨s₀, hazards, s₁, predicate, enter, exit, latch, s₂, bodyEnds, s₃, bodyEnds', s₄, hsame, -,
      hsame', hrepeated, hbody, hsplice, hadds, -⟩ := h
    have hbefore := (hsame.trans hsame').adds.unmarked
    exact (hrepeated.gains (hbefore.counted hcounted)).between hbefore.nodeIds
      ((buildSequence_initial a returnTarget hbody).trans
        (hsplice.unmarked.nodeIds.trans hadds.unmarked.nodeIds))
  | .forLoop span counter start stop byStep body, _ => by
    refine ⟨⟨.outcome, some stop.span, 0⟩, fun loop points s hcounted => ?_⟩
    refine After.mono (forLoop_spec a returnTarget loop span counter start stop byStep body points s)
      fun ends s' h => ?_
    obtain ⟨s₀, points', s₁, predicate, enter, exit, guard, s₂, latch, s₃, bodyEnds, s₄, increment,
      hsame, hconditioned, -, hforked, hlatched, hbody, -, hadds, -⟩ := h
    have hbefore := hsame.adds.unmarked.trans hconditioned.unmarked
    exact (hforked.gains (hbefore.counted hcounted)).between hbefore.nodeIds
      ((hlatched.marks hforked.predicate_mem).nodeIds.trans
        ((buildSequence_initial a returnTarget hbody).trans hadds.unmarked.nodeIds))
  | .assignment _ _ _, h | .call _, h | .allocation _ _ _, h | .empty _, h | .preserved _ _, h
  | .exitLoop _, h | .continueLoop _, h | .returnPou _, h => by cases h

theorem buildSequence_gains : ∀ (statements : List Statement), controlsIn statements = true →
    ∃ id, ∀ (loop : Option LoopContext) (points : List FlowPoint) (s : Builder), Counted s →
      After (buildSequence a returnTarget loop statements points) s fun _ s' => Gains id s s'
  | [], h => by cases h
  | statement :: rest, h => by
    by_cases hcontrols : statement.controls = true
    · obtain ⟨id, hid⟩ := buildStatement_gains statement hcontrols
      refine ⟨id, fun loop points s hcounted => ?_⟩
      refine After.bind (hid loop points s hcounted) fun points₁ s₁ h₁ => ?_
      refine After.mono (buildSequence_marks a returnTarget rest loop points₁ s₁) fun _ s₂ h₂ => ?_
      exact h₁.between List.prefix_rfl h₂.nodeIds
    · obtain ⟨id, hid⟩ := buildSequence_gains rest (by simpa [controlsIn, hcontrols] using h)
      refine ⟨id, fun loop points s hcounted => ?_⟩
      refine After.bind (buildStatement_marks a returnTarget statement loop points s)
        fun points₁ s₁ h₁ => ?_
      refine After.mono (hid loop points₁ s₁ (h₁.counted hcounted)) fun _ s₂ h₂ => ?_
      exact h₂.between h₁.nodeIds List.prefix_rfl

end

/-- Two labels of a branch with a control statement make one node twice. -/
theorem buildLabels_repeats {body : List Statement} (hcontrols : controlsIn body = true)
    (label label' : AstExpr) (labels : List AstExpr) (loop : Option LoopContext) {predicate : NodeId}
    (selector : TypedExpression) (ordinal : ℕ) (hcounted : Counted s)
    (hpredicate : predicate ∈ s.nodeIds) :
    After (buildLabels predicate selector
      (fun outcome => buildSequence a returnTarget loop body [⟨outcome, []⟩]) ordinal
      (label :: label' :: labels)) s fun _ s' => ¬s'.nodeIds.Nodup := by
  obtain ⟨id, hid⟩ := buildSequence_gains a returnTarget body hcontrols
  have hbody := fun outcome => buildSequence_marks a returnTarget body loop [⟨outcome, []⟩]
  refine After.mono (label_spec predicate selector _ ordinal label _ s) fun result s' h => ?_
  obtain ⟨guard, outcome, s₁, bodyEnds, s₂, result', -, -, ⟨node, -, hadds⟩, -, hrun, hrest, -⟩ := h
  have hlabel := hadds.owned_one hpredicate
  have hmarks := (hbody outcome s₁).of_run hrun
  have hgains := (hid loop _ s₁ (hlabel.counted hcounted)).of_run hrun
  have hpredicate₂ := hmarks.mem_nodeIds (hlabel.mem_nodeIds hpredicate)
  obtain ⟨guard', outcome', s₃, bodyEnds', s₄, result'', -, -, ⟨node', -, hadds'⟩, -, hrun', hrest', -⟩ :=
    (label_spec predicate selector _ (ordinal + 1) label' labels s₂).of_run hrest
  have hlabel' := hadds'.owned_one hpredicate₂
  have hmarks' := (hbody outcome' s₃).of_run hrun'
  have hcounted₃ := hlabel'.counted (hmarks.counted (hlabel.counted hcounted))
  have hgains' := (hid loop _ s₃ hcounted₃).of_run hrun'
  have hlabels := (buildLabels_marks hbody labels (ordinal + 2) s₄ (hmarks'.mem_nodeIds
    (hlabel'.mem_nodeIds hpredicate₂))).of_run hrest'
  exact not_nodup_of_initial (hgains'.not_nodup (hlabel'.mem_nodeIds hgains.mem)) hlabels.nodeIds

mutual

theorem buildStatement_repeats : ∀ (statement : Statement), statement.copies = true →
    ∀ (loop : Option LoopContext) (points : List FlowPoint) (s : Builder), Counted s →
      After (buildStatement a returnTarget loop statement points) s fun _ s' => ¬s'.nodeIds.Nodup
  | .ifs span blocks elseBlock, hcopies, loop, points, s, hcounted => by
    refine After.mono (ifs_spec a returnTarget loop span blocks elseBlock points s) fun ends s' h => ?_
    obtain ⟨result, s₁, elseEnds, hblocks, hrun, -⟩ := h
    have hmarks := (buildIfBlocks_marks a returnTarget blocks loop _ _ points s).of_run hblocks
    rw [Statement.copies, Bool.or_eq_true] at hcopies
    rcases hcopies with hcopies | hcopies
    · have h₁ := (buildIfBlocks_repeats blocks hcopies loop _ _ points s hcounted).of_run hblocks
      exact not_nodup_of_initial h₁ (buildSequence_initial a returnTarget hrun)
    · exact (buildSequence_repeats elseBlock hcopies loop _ s₁ (hmarks.counted hcounted)).of_run hrun
  | .cases span selector blocks elseBlock, hcopies, loop, points, s, hcounted => by
    refine After.mono (cases_spec a returnTarget loop span selector blocks elseBlock points s)
      fun ends s' h => ?_
    obtain ⟨points', s₁, predicate, s₂, result, s₃, default, s₄, elseEnds, hconditioned, -, hadds, -,
      hblocks, ⟨node, guard, -, -, -, hdefault, -⟩, hrun, -⟩ := h
    have hmem : predicate ∈ s₂.nodeIds := by simp [hadds.nodeIds]
    have hcounted₂ := hadds.unmarked.counted (hconditioned.unmarked.counted hcounted)
    have hmarks := (buildCaseBlocks_marks a returnTarget blocks loop predicate _ 0 s₂ hmem).of_run hblocks
    have hdefault' := hdefault.owned_one (hmarks.mem_nodeIds hmem)
    rw [Statement.copies, Bool.or_eq_true] at hcopies
    rcases hcopies with hcopies | hcopies
    · have h₃ := (buildCaseBlocks_repeats blocks hcopies loop predicate _ 0 s₂ hmem hcounted₂).of_run
        hblocks
      exact not_nodup_of_initial h₃ (hdefault'.nodeIds.trans (buildSequence_initial a returnTarget hrun))
    · exact (buildSequence_repeats elseBlock hcopies loop _ s₄
        (hdefault'.counted (hmarks.counted hcounted₂))).of_run hrun
  | .whileLoop span condition body, hcopies, loop, points, s, hcounted => by
    refine After.mono (whileLoop_spec a returnTarget loop span condition body points s)
      fun ends s' h => ?_
    obtain ⟨points', s₁, predicate, enter, exit, s₂, bodyEnds, s₃, latch, hconditioned, hforked, hbody,
      hlatched, -⟩ := h
    have hcounted₂ := hforked.counted (hconditioned.unmarked.counted hcounted)
    have hlatched' := hlatched.marks
      ((buildSequence_initial a returnTarget hbody).subset hforked.predicate_mem)
    exact not_nodup_of_initial
      ((buildSequence_repeats body hcopies _ _ s₂ hcounted₂).of_run hbody) hlatched'.nodeIds
  | .repeatLoop span condition body, hcopies, loop, points, s, hcounted => by
    refine After.mono (repeatLoop_spec a returnTarget loop span condition body points s)
      fun ends s' h => ?_
    obtain ⟨s₀, hazards, s₁, predicate, enter, exit, latch, s₂, bodyEnds, s₃, bodyEnds', s₄, hsame, -,
      hsame', hrepeated, hbody, hsplice, hadds, -⟩ := h
    have hcounted₂ := hrepeated.counted ((hsame.trans hsame').adds.unmarked.counted hcounted)
    exact not_nodup_of_initial ((buildSequence_repeats body hcopies _ _ s₂ hcounted₂).of_run hbody)
      (hsplice.unmarked.trans hadds.unmarked).nodeIds
  | .forLoop span counter start stop byStep body, hcopies, loop, points, s, hcounted => by
    refine After.mono (forLoop_spec a returnTarget loop span counter start stop byStep body points s)
      fun ends s' h => ?_
    obtain ⟨s₀, points', s₁, predicate, enter, exit, guard, s₂, latch, s₃, bodyEnds, s₄, increment,
      hsame, hconditioned, -, hforked, hlatched, hbody, -, hadds, -⟩ := h
    have hcounted₂ := hforked.counted
      ((hsame.adds.unmarked.trans hconditioned.unmarked).counted hcounted)
    have hcounted₃ := (hlatched.marks hforked.predicate_mem).counted hcounted₂
    exact not_nodup_of_initial ((buildSequence_repeats body hcopies _ _ s₃ hcounted₃).of_run hbody)
      hadds.unmarked.nodeIds
  | .assignment _ _ _, h, _, _, _, _ | .call _, h, _, _, _, _ | .allocation _ _ _, h, _, _, _, _
  | .empty _, h, _, _, _, _ | .preserved _ _, h, _, _, _, _ | .exitLoop _, h, _, _, _, _
  | .continueLoop _, h, _, _, _, _ | .returnPou _, h, _, _, _, _ => by cases h

theorem buildSequence_repeats : ∀ (statements : List Statement), copiesIn statements = true →
    ∀ (loop : Option LoopContext) (points : List FlowPoint) (s : Builder), Counted s →
      After (buildSequence a returnTarget loop statements points) s fun _ s' => ¬s'.nodeIds.Nodup
  | [], h, _, _, _, _ => by cases h
  | statement :: rest, hcopies, loop, points, s, hcounted => by
    rw [copiesIn, Bool.or_eq_true] at hcopies
    rcases hcopies with hcopies | hcopies
    · refine After.bind (buildStatement_repeats statement hcopies loop points s hcounted)
        fun points₁ s₁ h₁ => ?_
      exact After.mono (buildSequence_marks a returnTarget rest loop points₁ s₁)
        fun _ _ h₂ => not_nodup_of_initial h₁ h₂.nodeIds
    · refine After.bind (buildStatement_marks a returnTarget statement loop points s)
        fun points₁ s₁ h₁ => ?_
      exact buildSequence_repeats rest hcopies loop points₁ s₁ (h₁.counted hcounted)

theorem buildIfBlocks_repeats : ∀ (blocks : List ConditionalBlock),
    copiesInBranches (fun _ => 1) blocks = true → ∀ (loop : Option LoopContext) (index : ℕ)
    (hasElse : Bool) (points : List FlowPoint) (s : Builder), Counted s →
      After (buildIfBlocks a returnTarget loop index hasElse blocks points) s
        fun _ s' => ¬s'.nodeIds.Nodup
  | [], h, _, _, _, _, _, _ => by cases h
  | ⟨condition, body⟩ :: rest, hcopies, loop, index, hasElse, points, s, hcounted => by
    refine After.mono (ifBlock_spec a returnTarget loop index hasElse condition body rest points s)
      fun result s' h => ?_
    obtain ⟨points', s₁, predicate, whenTrue, whenFalse, s₂, bodyEnds, s₃, falsePoint, s₄, result',
      hconditioned, hforked, hbody, helse, hrest, -⟩ := h
    have hcounted₂ := hforked.counted (hconditioned.unmarked.counted hcounted)
    have hbody' := (buildSequence_marks a returnTarget body loop _ s₂).of_run hbody
    have helse' : s₃.nodeIds <+: s₄.nodeIds ∧ (Counted s₃ → Counted s₄) := by
      rcases helse with ⟨-, rfl⟩ | ⟨node, -, -, hadds⟩
      · exact ⟨List.prefix_rfl, id⟩
      · have hmarks := hadds.owned_one (hbody'.mem_nodeIds hforked.predicate_mem)
        exact ⟨hmarks.nodeIds, hmarks.counted⟩
    have hrest' := (buildIfBlocks_marks a returnTarget rest loop _ hasElse _ s₄).of_run hrest
    rw [copiesInBranches, Bool.or_eq_true] at hcopies
    rcases hcopies with hcopies | hcopies
    · exact not_nodup_of_initial ((buildSequence_repeats body hcopies loop _ s₂ hcounted₂).of_run hbody)
        (helse'.1.trans hrest'.nodeIds)
    · exact (buildIfBlocks_repeats rest hcopies loop _ hasElse _ s₄
        (helse'.2 (hbody'.counted hcounted₂))).of_run hrest

theorem buildCaseBlocks_repeats : ∀ (blocks : List ConditionalBlock),
    copiesInBranches (fun condition => (caseLabels condition).length) blocks = true →
    ∀ (loop : Option LoopContext) (predicate : NodeId) (selector : TypedExpression) (blockIndex : ℕ)
      (s : Builder), predicate ∈ s.nodeIds → Counted s →
      After (buildCaseBlocks a returnTarget loop predicate selector blockIndex blocks) s
        fun _ s' => ¬s'.nodeIds.Nodup
  | [], h, _, _, _, _, _, _, _ => by cases h
  | ⟨condition, body⟩ :: rest, hcopies, loop, predicate, selector, blockIndex, s, hpredicate,
      hcounted => by
    refine After.mono (caseBlock_spec a returnTarget loop predicate selector blockIndex condition body
      rest s) fun result s' h => ?_
    obtain ⟨result₁, s₁, result₂, hlabels, hrest, -⟩ := h
    have hbody := fun outcome => buildSequence_marks a returnTarget body loop [⟨outcome, []⟩]
    have h₁ := (buildLabels_marks hbody _ _ s hpredicate).of_run hlabels
    have h₂ := (buildCaseBlocks_marks a returnTarget rest loop predicate selector _ s₁
      (h₁.mem_nodeIds hpredicate)).of_run hrest
    rw [copiesInBranches, Bool.or_eq_true] at hcopies
    rcases hcopies with hcopies | hcopies
    · apply not_nodup_of_initial _ h₂.nodeIds
      cases hsplit : caseLabels condition with
      | nil => simp [hsplit] at hcopies
      | cons label labels =>
        rw [hsplit] at hlabels
        cases labels with
        | nil =>
          -- the body of a single label is built once, and repeats something in it
          obtain ⟨guard, outcome, s₂, bodyEnds, s₃, result', -, -, ⟨node, -, hadds⟩, -, hrun, hnil, -⟩ :=
            (label_spec predicate selector _ (blockIndex * 1024) label [] s).of_run hlabels
          cases hnil
          have hcounted₂ := (hadds.owned_one hpredicate).counted hcounted
          have hcopies' : copiesIn body = true := by simpa [hsplit] using hcopies
          exact (buildSequence_repeats body hcopies' loop _ s₂ hcounted₂).of_run hrun
        | cons label' labels =>
          have hcontrols : controlsIn body = true := by simpa [hsplit] using hcopies
          exact (buildLabels_repeats a returnTarget hcontrols label label' labels loop selector _ hcounted
            hpredicate).of_run hlabels
    · exact (buildCaseBlocks_repeats rest hcopies loop predicate selector _ s₁ (h₁.mem_nodeIds hpredicate)
        (h₁.counted hcounted)).of_run hrest

end

end

theorem graphOf_repeats (a : Annotations) (pou : Pou) (h : copiesIn pou.statements = true) :
    ¬(graphOf a pou).nodeIds.Nodup := by
  have hcounted : Counted {} := (valid_empty pou.roots).counted
  apply After.run (x := build a pou) (s := {}) (Q := fun _ s' => ¬s'.nodeIds.Nodup)
  refine After.bind (buildFrame_marks pou) fun r s₁ h₁ => ?_
  refine After.bind (buildSequence_repeats a r.2 pou.statements h none _ s₁ (h₁.counted hcounted))
    fun ends s₂ h₂ => ?_
  refine After.mono (connectPoints_adds ends r.2 s₂) fun _ s₃ h₃ => ?_
  exact not_nodup_of_initial h₂ h₃.1.unmarked.nodeIds

/-- **The identifiers of a graph are different exactly where no control statement is built more than
once**, and `validate_pou` reports no duplicate exactly there. -/
theorem graphOf_uniqueIds_iff (a : Annotations) (pou : Pou) :
    ((graphOf a pou).UniqueIds ∧ (graphOf a pou).duplicateIds = []) ↔
      copiesIn pou.statements = false := by
  constructor
  · intro h
    by_contra hcopies
    exact graphOf_repeats a pou (by simpa using hcopies) h.1.nodes
  · intro h
    have hunique := graphOf_uniqueIds a pou h
    exact ⟨hunique, (duplicateIds_eq_nil _).2 ⟨hunique.nodes, hunique.edges, hunique.targets⟩⟩

/-! ## An IF in a branch with two labels -/

def leaf (id start length : ℕ) (kind : AstKind) : AstExpr :=
  ⟨id, ⟨start, start + length⟩, kind, "DINT".toList, []⟩

def labelledIfStatements : List Statement :=
  let labels := [leaf 2 10 1 (.literal (.integer "1".toList)),
    leaf 3 13 1 (.literal (.integer "2".toList))]
  let condition : AstExpr := ⟨1, ⟨10, 14⟩, .expressionList, [], labels⟩
  let body : Statement := .assignment ⟨30, 36⟩ (leaf 5 30 1 (.identifier "y".toList))
    (leaf 6 35 1 (.literal (.integer "1".toList)))
  [.cases ⟨0, 60⟩ (leaf 0 5 1 (.identifier "x".toList))
    [⟨condition, [.ifs ⟨17, 45⟩ [⟨leaf 4 20 1 (.identifier "b".toList), [body]⟩] []]⟩] []]

/-- `CASE x OF 1, 2: IF b THEN y := 1; END_IF END_CASE` -/
def labelledIf : Pou where
  stateful := true
  span := ⟨0, 60⟩
  initialValues := []
  statements := labelledIfStatements
  placed := by
    refine ⟨by decide +kernel, by decide +kernel, ?_⟩
    simp [labelledIfStatements, rootsOf, Statement.roots, rootsOfBlocks, caseLabels, nodesOfAll,
      AstExpr.nodes, leaf]
  nodupStatements := by decide +kernel
  statementSpan := by
    simp [labelledIfStatements, rootsOf, Statement.roots, rootsOfBlocks, caseLabels, spansOf,
      Statement.spans, spansOfBlocks, leaf]

def plainAnnotations : Annotations where
  conversionFor := fun _ _ => none
  isExternalOutputTarget := fun _ => false
  isFloatType := fun _ => false
  isIntegerType := fun _ => false

theorem not_uniqueIds_labelledIf : ¬((graphOf plainAnnotations labelledIf).UniqueIds ∧
    (graphOf plainAnnotations labelledIf).duplicateIds = []) :=
  fun h => graphOf_repeats plainAnnotations labelledIf rfl h.1.nodes

end SemantiST.Stg
