import SemantiST.Stg.Statements

/-!
# The places of outcomes and latches

Where the outcomes and latches of a body stand, and the control statements that are built more than
once: those in a branch of a CASE with several labels.  Where there are none, no two predicates have
outcomes or latches at one place.
-/

namespace SemantiST.Stg

open Lib Semantic

variable {s s' s'' : Builder}

/-! ## Control statements -/

mutual

/-- A control statement is built for the statement. -/
def Statement.controls : Statement → Bool
  | .ifs _ blocks elseBlock => !blocks.isEmpty || controlsIn elseBlock
  | .cases _ _ _ _ | .whileLoop _ _ _ | .repeatLoop _ _ _ | .forLoop _ _ _ _ _ _ => true
  | .assignment _ _ _ | .call _ | .allocation _ _ _ | .empty _ | .preserved _ _ | .exitLoop _
  | .continueLoop _ | .returnPou _ => false

def controlsIn : List Statement → Bool
  | [] => false
  | statement :: rest => statement.controls || controlsIn rest

end

mutual

/-- A control statement in the statement is built more than once. -/
def Statement.copies : Statement → Bool
  | .ifs _ blocks elseBlock => copiesInBranches (fun _ => 1) blocks || copiesIn elseBlock
  | .cases _ _ blocks elseBlock =>
    copiesInBranches (fun condition => (caseLabels condition).length) blocks || copiesIn elseBlock
  | .whileLoop _ _ body | .repeatLoop _ _ body | .forLoop _ _ _ _ _ body => copiesIn body
  | .assignment _ _ _ | .call _ | .allocation _ _ _ | .empty _ | .preserved _ _ | .exitLoop _
  | .continueLoop _ | .returnPou _ => false

def copiesIn : List Statement → Bool
  | [] => false
  | statement :: rest => statement.copies || copiesIn rest

/-- The same of the bodies of branches, each of which is built so many times. -/
def copiesInBranches (times : AstExpr → ℕ) : List ConditionalBlock → Bool
  | [] => false
  | ⟨condition, body⟩ :: rest =>
    (match times condition with
      | 0 => false
      | 1 => copiesIn body
      | _ => controlsIn body) || copiesInBranches times rest

end

/-! ## Places -/

mutual

def Statement.marks : Statement → List SourceSpan
  | .ifs _ blocks elseBlock => marksOfBlocks (fun condition => [condition]) blocks ++ marksOf elseBlock
  | .cases _ selector blocks elseBlock =>
    selector.span :: (marksOfBlocks caseLabels blocks ++ marksOf elseBlock)
  | .whileLoop span condition body | .repeatLoop span condition body =>
    span :: condition.span :: marksOf body
  | .forLoop span _ _ stop _ body => span :: stop.span :: marksOf body
  | .assignment _ _ _ | .call _ | .allocation _ _ _ | .empty _ | .preserved _ _ | .exitLoop _
  | .continueLoop _ | .returnPou _ => []

def marksOf : List Statement → List SourceSpan
  | [] => []
  | statement :: rest => statement.marks ++ marksOf rest

def marksOfBlocks (split : AstExpr → List AstExpr) : List ConditionalBlock → List SourceSpan
  | [] => []
  | ⟨condition, body⟩ :: rest =>
    (split condition).map AstExpr.span ++ (marksOf body ++ marksOfBlocks split rest)

end

mutual

theorem marks_eq_nil : ∀ statement : Statement, statement.controls = false → statement.marks = []
  | .ifs _ blocks elseBlock, h => by
    rw [Statement.controls, Bool.or_eq_false_iff] at h
    cases blocks with
    | nil => rw [Statement.marks, marksOfBlocks, marksOf_eq_nil elseBlock h.2, List.nil_append]
    | cons block rest => cases h.1
  | .cases _ _ _ _, h | .whileLoop _ _ _, h | .repeatLoop _ _ _, h | .forLoop _ _ _ _ _ _, h => by
    cases h
  | .assignment _ _ _, _ | .call _, _ | .allocation _ _ _, _ | .empty _, _ | .preserved _ _, _
  | .exitLoop _, _ | .continueLoop _, _ | .returnPou _, _ => rfl

theorem marksOf_eq_nil : ∀ statements : List Statement,
    controlsIn statements = false → marksOf statements = []
  | [], _ => rfl
  | statement :: rest, h => by
    rw [controlsIn, Bool.or_eq_false_iff] at h
    rw [marksOf, marks_eq_nil statement h.1, marksOf_eq_nil rest h.2, List.nil_append]

end

mutual

/-- A place of an outcome or latch is that of an expression or that of a statement. -/
theorem count_marks (span : SourceSpan) : ∀ statement : Statement, statement.marks.count span ≤
    (statement.roots.map AstExpr.span).count span + statement.spans.count span
  | .ifs _ blocks elseBlock => by
    have hblocks := count_marksOfBlocks span (fun condition => [condition]) blocks
    have helse := count_marksOf span elseBlock
    simp only [Statement.marks, Statement.roots, Statement.spans, List.map_append, List.count_append,
      List.count_cons]
    omega
  | .cases _ selector blocks elseBlock => by
    have hblocks := count_marksOfBlocks span caseLabels blocks
    have helse := count_marksOf span elseBlock
    simp only [Statement.marks, Statement.roots, Statement.spans, List.map_append, List.map_cons,
      List.count_append, List.count_cons]
    omega
  | .whileLoop _ condition body | .repeatLoop _ condition body => by
    have hbody := count_marksOf span body
    simp only [Statement.marks, Statement.roots, Statement.spans, List.map_cons, List.count_cons]
    omega
  | .forLoop _ counter start stop byStep body => by
    have hbody := count_marksOf span body
    simp only [Statement.marks, Statement.roots, Statement.spans, List.map_cons, List.map_append,
      List.count_append, List.count_cons]
    omega
  | .assignment _ _ _ | .call _ | .allocation _ _ _ | .empty _ | .preserved _ _ | .exitLoop _
  | .continueLoop _ | .returnPou _ => by
    simp only [Statement.marks, List.count_nil]
    omega

theorem count_marksOf (span : SourceSpan) : ∀ statements : List Statement,
    (marksOf statements).count span ≤
      ((rootsOf statements).map AstExpr.span).count span + (spansOf statements).count span
  | [] => Nat.zero_le _
  | statement :: rest => by
    have hstatement := count_marks span statement
    have hrest := count_marksOf span rest
    simp only [marksOf, rootsOf, spansOf, List.map_append, List.count_append]
    omega

theorem count_marksOfBlocks (span : SourceSpan) (split : AstExpr → List AstExpr) :
    ∀ blocks : List ConditionalBlock, (marksOfBlocks split blocks).count span ≤
      ((rootsOfBlocks split blocks).map AstExpr.span).count span + (spansOfBlocks blocks).count span
  | [] => Nat.zero_le _
  | ⟨condition, body⟩ :: rest => by
    have hbody := count_marksOf span body
    have hrest := count_marksOfBlocks span split rest
    simp only [marksOfBlocks, rootsOfBlocks, spansOfBlocks, List.map_append, List.count_append]
    omega

end

/-- The places of the outcomes and latches of a unit are different. -/
theorem Pou.nodup_marks (pou : Pou) : (marksOf pou.statements).Nodup := by
  rw [List.nodup_iff_count_le_one]
  intro span
  have hcount := count_marksOf span pou.statements
  have hroots : (pou.roots.map AstExpr.span).Nodup := pou.placed.nodup_rootSpans
  rw [Pou.roots, List.map_append, List.nodup_append'] at hroots
  have hroots' := List.nodup_iff_count_le_one.1 hroots.2.1 span
  have hspans := List.nodup_iff_count_le_one.1 pou.nodupStatements span
  by_cases hmem : span ∈ spansOf pou.statements
  · have hzero : ((rootsOf pou.statements).map AstExpr.span).count span = 0 := by
      rw [List.count_eq_zero]
      intro hroot
      obtain ⟨root, hmem', rfl⟩ := List.mem_map.1 hroot
      exact pou.statementSpan _ hmem root hmem' rfl
    omega
  · have hzero : (spansOf pou.statements).count span = 0 := List.count_eq_zero.2 hmem
    omega

/-! ## Marks of different predicates -/

/-- The marks stand at some places; when these are different, marks at one place are of one
predicate. -/
def Settled (spans : List SourceSpan) (ok : Prop) (marks : List (SourceSpan × NodeId)) : Prop :=
  (∀ mark ∈ marks, mark.1 ∈ spans) ∧
    (ok → spans.Nodup → ∀ mark ∈ marks, ∀ mark' ∈ marks, mark.1 = mark'.1 → mark.2 = mark'.2)

structure Marks (spans : List SourceSpan) (ok : Prop) (s s' : Builder) : Prop where
  adds : ∃ nodes links marks, Adds nodes links marks s s' ∧ Settled spans ok marks
  counted : Counted s → Counted s'

section

variable {spans spans' : List SourceSpan} {ok ok' : Prop}

theorem settled_nil : Settled spans ok [] := by simp [Settled]

theorem Settled.append {marks marks' : List (SourceSpan × NodeId)} (h : Settled spans ok marks)
    (h' : Settled spans' ok' marks') : Settled (spans ++ spans') (ok ∧ ok') (marks ++ marks') := by
  refine ⟨fun mark hmark => ?_, fun hok hnodup mark hmark mark' hmark' heq => ?_⟩
  · rcases List.mem_append.1 hmark with hmark | hmark
    · exact List.mem_append_left _ (h.1 mark hmark)
    · exact List.mem_append_right _ (h'.1 mark hmark)
  · obtain ⟨hnodup, hnodup', hdisjoint⟩ := List.nodup_append'.1 hnodup
    rcases List.mem_append.1 hmark with hmark | hmark <;>
      rcases List.mem_append.1 hmark' with hmark' | hmark'
    · exact h.2 hok.1 hnodup mark hmark mark' hmark' heq
    · exact (hdisjoint (h.1 mark hmark) (heq ▸ h'.1 mark' hmark')).elim
    · exact (hdisjoint (heq ▸ h.1 mark' hmark') (h'.1 mark hmark)).elim
    · exact h'.2 hok.2 hnodup' mark hmark mark' hmark' heq

theorem Marks.trans (h : Marks spans ok s s') (h' : Marks spans' ok' s' s'') :
    Marks (spans ++ spans') (ok ∧ ok') s s'' := by
  obtain ⟨⟨nodes, links, marks, hadds, hsettled⟩, hcounted⟩ := h
  obtain ⟨⟨nodes', links', marks', hadds', hsettled'⟩, hcounted'⟩ := h'
  exact ⟨⟨_, _, _, hadds.trans hadds', hsettled.append hsettled'⟩, fun hs => hcounted' (hcounted hs)⟩

/-- More places, in any order. -/
theorem Marks.mono (h : Marks spans ok s s') (hspans : spans.Subperm spans') (hok : ok' → ok) :
    Marks spans' ok' s s' := by
  obtain ⟨⟨nodes, links, marks, hadds, hmem, hsettled⟩, hcounted⟩ := h
  refine ⟨⟨nodes, links, marks, hadds, fun mark hmark => hspans.subset (hmem mark hmark),
    fun hok' hnodup => hsettled (hok hok') ?_⟩, hcounted⟩
  obtain ⟨spans₁, hperm, hsublist⟩ := hspans
  exact hperm.nodup_iff.1 (hnodup.sublist hsublist)

/-- The same places, where the condition does not hold. -/
theorem Marks.weaken (h : Marks spans ok s s') (hspans : spans ⊆ spans') (hok : ¬ok') :
    Marks spans' ok' s s' := by
  obtain ⟨⟨nodes, links, marks, hadds, hmem, -⟩, hcounted⟩ := h
  exact ⟨⟨nodes, links, marks, hadds, fun mark hmark => hspans (hmem mark hmark),
    fun hok' => absurd hok' hok⟩, hcounted⟩

theorem Marks.of_nil (h : Marks [] ok s s') : Marks [] True s s' := by
  obtain ⟨⟨nodes, links, marks, hadds, hmem, -⟩, hcounted⟩ := h
  refine ⟨⟨nodes, links, marks, hadds, hmem, fun _ _ mark hmark => ?_⟩, hcounted⟩
  cases hmem mark hmark

theorem Marks.always (h : Marks [] True s s') : Marks [] ok s s' :=
  h.mono (List.Subperm.refl _) fun _ => trivial

theorem Marks.refl (s : Builder) : Marks [] True s s :=
  ⟨⟨[], [], [], (SameGraph.refl s).adds, settled_nil⟩, id⟩

section

variable {nodes : List Node} {links : List Link} {marks : List (SourceSpan × NodeId)}

theorem Adds.unmarked (h : Adds nodes links [] s s') : Marks [] True s s' :=
  ⟨⟨nodes, links, [], h, settled_nil⟩, h.counted (by simp)⟩

/-- All marks are of one predicate. -/
theorem Adds.owned (h : Adds nodes links marks s s') (predicate : NodeId)
    (hmarks : ∀ mark ∈ marks, mark.1 ∈ spans ∧ mark.2 = predicate)
    (hcounted : Counted s → Counted s') : Marks spans True s s' :=
  ⟨⟨nodes, links, marks, h, fun mark hmark => (hmarks mark hmark).1,
    fun _ _ mark hmark mark' hmark' _ => (hmarks mark hmark).2.trans (hmarks mark' hmark').2.symm⟩,
    hcounted⟩

/-- Marks of one predicate at some places, before and after others. -/
theorem Adds.around {nodes' : List Node} {links' : List Link} {marks' : List (SourceSpan × NodeId)}
    {last : Builder} (h : Adds nodes links marks s s') (predicate : NodeId)
    (hmarks : ∀ mark ∈ marks, mark.1 ∈ spans ∧ mark.2 = predicate)
    (hbetween : Marks spans' ok' s' s'') (h' : Adds nodes' links' marks' s'' last)
    (hmarks' : ∀ mark ∈ marks', mark.1 ∈ spans ∧ mark.2 = predicate)
    (hcounted : Counted s → Counted s') (hcounted' : Counted s'' → Counted last) :
    Marks (spans ++ spans') ok' s last := by
  obtain ⟨⟨nodes₁, links₁, marks₁, hadds, hsettled⟩, hcounted₁⟩ := hbetween
  have howned : Settled spans True (marks ++ marks') := by
    have hall : ∀ mark ∈ marks ++ marks', mark.1 ∈ spans ∧ mark.2 = predicate := by
      intro mark hmark
      rcases List.mem_append.1 hmark with hmark | hmark
      · exact hmarks mark hmark
      · exact hmarks' mark hmark
    exact ⟨fun mark hmark => (hall mark hmark).1,
      fun _ _ mark hmark mark' hmark' _ => (hall mark hmark).2.trans (hall mark' hmark').2.symm⟩
  refine ⟨⟨_, _, _, (h.trans hadds).trans h', ?_⟩, fun hs => hcounted' (hcounted₁ (hcounted hs))⟩
  obtain ⟨hmem, hfunctional⟩ := howned.append hsettled
  have hsub : ∀ mark ∈ marks ++ marks₁ ++ marks', mark ∈ marks ++ marks' ++ marks₁ := by
    intro mark hmark
    simp only [List.mem_append] at hmark ⊢
    tauto
  exact ⟨fun mark hmark => hmem mark (hsub mark hmark), fun hok hnodup mark hmark mark' hmark' =>
    hfunctional ⟨trivial, hok⟩ hnodup mark (hsub mark hmark) mark' (hsub mark' hmark')⟩

/-- One mark, of a predicate that is there. -/
theorem Adds.owned_one {predicate : NodeId} {span : SourceSpan}
    (h : Adds nodes links [(span, predicate)] s s') (hpredicate : predicate ∈ s.nodeIds) :
    Marks [span] True s s' :=
  h.owned predicate (by simp) (h.counted (by simpa using hpredicate))

end

theorem Marks.nodeIds (h : Marks spans ok s s') : s.nodeIds <+: s'.nodeIds := by
  obtain ⟨⟨nodes, links, marks, hadds, -⟩, -⟩ := h
  rw [hadds.nodeIds]
  exact List.prefix_append _ _

theorem Marks.mem_nodeIds (h : Marks spans ok s s') {id : NodeId} (hid : id ∈ s.nodeIds) :
    id ∈ s'.nodeIds := h.nodeIds.subset hid

end

theorem Splice.adds {points points' : List FlowPoint} {hazards : List HazardCandidate}
    (h : Splice points hazards points' s s') : ∃ nodes links, Adds nodes links [] s s' := by
  induction h with
  | nil points s => exact ⟨[], [], (SameGraph.refl s).adds⟩
  | cons hkind hadds hrest ih =>
    obtain ⟨nodes, links, hadds'⟩ := ih
    exact ⟨_, _, hadds.trans hadds'⟩

theorem Splice.unmarked {points points' : List FlowPoint} {hazards : List HazardCandidate}
    (h : Splice points hazards points' s s') : Marks [] True s s' := by
  obtain ⟨nodes, links, hadds⟩ := h.adds
  exact hadds.unmarked

theorem Conditioned.unmarked {a : Annotations} {condition : AstExpr} {points points' : List FlowPoint}
    (h : Conditioned a condition points s points' s') : Marks [] True s s' := by
  obtain ⟨s₁, hazards, s₂, hsame, -, hsame', hsplice⟩ := h
  exact ((hsame.trans hsame').adds.unmarked.trans hsplice.unmarked).of_nil

theorem Forked.marks {span : SourceSpan} {points : List FlowPoint} {guard : TypedExpression}
    {predicate whenTrue whenFalse : NodeId}
    (h : Forked span points guard s predicate whenTrue whenFalse s') : Marks [span] True s s' := by
  obtain ⟨nodes, branches, -, -, hadds⟩ := h.adds
  exact hadds.owned predicate (by simp) h.counted

theorem Forked.predicate_mem {span : SourceSpan} {points : List FlowPoint} {guard : TypedExpression}
    {predicate whenTrue whenFalse : NodeId}
    (h : Forked span points guard s predicate whenTrue whenFalse s') : predicate ∈ s'.nodeIds := by
  obtain ⟨nodes, branches, hplain, -, hadds⟩ := h.adds
  rw [hadds.nodeIds]
  cases hplain with
  | cons hfirst _ => simp [hfirst.1]

theorem Latched.marks {span : SourceSpan} {predicate latch : NodeId} {links : List Link}
    (h : Latched span predicate latch links s s') (hpredicate : predicate ∈ s.nodeIds) :
    Marks [span] True s s' := by
  obtain ⟨node, -, -, hadds⟩ := h
  exact hadds.owned_one hpredicate

theorem Repeated.marks {span : SourceSpan} {condition : AstExpr} {points : List FlowPoint}
    {predicate enter exit latch : NodeId}
    (h : Repeated span condition points s predicate enter exit latch s') :
    Marks [span, condition.span] True s s' := by
  obtain ⟨again, nodes, branches, -, -, -, hadds⟩ := h.adds
  exact hadds.owned predicate (by simp) h.counted

/-! ## The marks of what is built -/

section

variable (a : Annotations) (returnTarget : NodeId)

theorem buildSimple_marks (statement : Statement) (points : List FlowPoint) (s : Builder) :
    After (buildSimple a statement points) s fun _ s' => Marks [] True s s' := by
  refine After.mono (buildSimple_spec a statement points s) fun ends s' h => ?_
  obtain ⟨operation, hazards, s₁, points', -, hsame, hsplice, -⟩ := h
  exact (hsame.adds.unmarked.trans hsplice.unmarked).of_nil

section

variable {predicate : NodeId} {selector : TypedExpression}
  {buildBody : NodeId → BuildM (List FlowPoint)} {spans : List SourceSpan} {ok : Prop}

/-- The labels of a branch whose body has no marks of its own. -/
theorem buildLabels_unmarked
    (hbody : ∀ outcome s, After (buildBody outcome) s fun _ s' => Marks [] True s s')
    (labels : List AstExpr) (ordinal : ℕ) (s : Builder) (hpredicate : predicate ∈ s.nodeIds) :
    After (buildLabels predicate selector buildBody ordinal labels) s fun _ s' =>
      Marks (labels.map AstExpr.span) True s s' := by
  induction labels generalizing ordinal s with
  | nil => exact After.pure (Marks.refl s)
  | cons label labels ih =>
    refine After.mono (label_spec predicate selector buildBody ordinal label labels s)
      fun result s' h => ?_
    obtain ⟨guard, outcome, s₁, bodyEnds, s₂, result', -, -, ⟨node, -, hadds⟩, -, hrun, hrun', -⟩ := h
    have hlabel := hadds.owned_one hpredicate
    have hbody' := (hbody outcome s₁).of_run hrun
    have hrest := (ih (ordinal + 1) s₂
      (hbody'.mem_nodeIds (hlabel.mem_nodeIds hpredicate))).of_run hrun'
    exact (hlabel.trans (hbody'.trans hrest)).mono (List.Subperm.refl _)
      fun _ => ⟨trivial, trivial, trivial⟩

/-- Several labels of a branch; the marks of the body are settled only where there is one. -/
theorem buildLabels_marks
    (hbody : ∀ outcome s, After (buildBody outcome) s fun _ s' => Marks spans ok s s')
    (labels : List AstExpr) (ordinal : ℕ) (s : Builder) (hpredicate : predicate ∈ s.nodeIds) :
    After (buildLabels predicate selector buildBody ordinal labels) s fun _ s' =>
      Marks (labels.map AstExpr.span ++ spans) (labels.length ≤ 1 ∧ (labels ≠ [] → ok)) s s' := by
  induction labels generalizing ordinal s with
  | nil => exact After.pure ((Marks.refl s).mono List.nil_subperm fun _ => trivial)
  | cons label labels ih =>
    refine After.mono (label_spec predicate selector buildBody ordinal label labels s)
      fun result s' h => ?_
    obtain ⟨guard, outcome, s₁, bodyEnds, s₂, result', -, -, ⟨node, -, hadds⟩, -, hrun, hrun', -⟩ := h
    have hlabel := hadds.owned_one hpredicate
    have hbody' := (hbody outcome s₁).of_run hrun
    have hhead := hlabel.trans hbody'
    cases labels with
    | nil =>
      cases hrun'
      exact hhead.mono (List.Subperm.refl _) fun hok => ⟨trivial, hok.2 (by simp)⟩
    | cons label' labels =>
      have hrest := (ih (ordinal + 1) s₂
        (hbody'.mem_nodeIds (hlabel.mem_nodeIds hpredicate))).of_run hrun'
      apply (hhead.trans hrest).weaken
      · intro span hspan
        simp only [List.mem_append, List.map_cons, List.mem_cons] at hspan ⊢
        tauto
      · intro hok
        have hlength := hok.1
        simp only [List.length_cons] at hlength
        omega

end

mutual

theorem buildStatement_marks : ∀ (statement : Statement) (loop : Option LoopContext)
    (points : List FlowPoint) (s : Builder),
    After (buildStatement a returnTarget loop statement points) s fun _ s' =>
      Marks statement.marks (statement.copies = false) s s'
  | .ifs span blocks elseBlock, loop, points, s => by
    refine After.mono (ifs_spec a returnTarget loop span blocks elseBlock points s) fun ends s' h => ?_
    obtain ⟨result, s₁, elseEnds, hblocks, helse, -⟩ := h
    have h₁ := (buildIfBlocks_marks blocks loop 0 _ points s).of_run hblocks
    have h₂ := (buildSequence_marks elseBlock loop result.2 s₁).of_run helse
    refine (h₁.trans h₂).mono ?_ fun hok => ?_
    · rw [Statement.marks]
    · rw [Statement.copies, Bool.or_eq_false_iff] at hok
      exact hok
  | .cases span selector blocks elseBlock, loop, points, s => by
    refine After.mono (cases_spec a returnTarget loop span selector blocks elseBlock points s)
      fun ends s' h => ?_
    obtain ⟨points', s₁, predicate, s₂, result, s₃, default, s₄, elseEnds, hconditioned, -, hadds, -,
      hblocks, ⟨node, guard, -, -, -, hdefault, -⟩, helse, -⟩ := h
    have hpredicate : predicate ∈ s₂.nodeIds := by simp [hadds.nodeIds]
    have h₃ := (buildCaseBlocks_marks blocks loop predicate _ 0 s₂ hpredicate).of_run hblocks
    have h₄ := hdefault.owned_one (h₃.mem_nodeIds hpredicate)
    have h₅ := (buildSequence_marks elseBlock loop _ s₄).of_run helse
    refine (hconditioned.unmarked.trans (hadds.unmarked.trans (h₃.trans (h₄.trans h₅)))).mono ?_
      fun hok => ?_
    · rw [Statement.marks, List.nil_append, List.nil_append]
      exact List.perm_middle.subperm
    · rw [Statement.copies, Bool.or_eq_false_iff] at hok
      exact ⟨trivial, trivial, hok.1, trivial, hok.2⟩
  | .whileLoop span condition body, loop, points, s => by
    refine After.mono (whileLoop_spec a returnTarget loop span condition body points s)
      fun ends s' h => ?_
    obtain ⟨points', s₁, predicate, enter, exit, s₂, bodyEnds, s₃, latch, hconditioned, hforked, hbody,
      hlatched, -⟩ := h
    have h₃ := (buildSequence_marks body _ _ s₂).of_run hbody
    have h₄ := hlatched.marks (h₃.mem_nodeIds hforked.predicate_mem)
    refine (hconditioned.unmarked.trans (hforked.marks.trans (h₃.trans h₄))).mono ?_ fun hok => ?_
    · rw [Statement.marks, List.nil_append, ← List.append_assoc]
      exact (List.perm_append_singleton span (condition.span :: marksOf body)).subperm
    · rw [Statement.copies] at hok
      exact ⟨trivial, trivial, hok, trivial⟩
  | .repeatLoop span condition body, loop, points, s => by
    refine After.mono (repeatLoop_spec a returnTarget loop span condition body points s)
      fun ends s' h => ?_
    obtain ⟨s₀, hazards, s₁, predicate, enter, exit, latch, s₂, bodyEnds, s₃, bodyEnds', s₄, hsame, -,
      hsame', hrepeated, hbody, hsplice, hadds, -⟩ := h
    have h₃ := (buildSequence_marks body _ _ s₂).of_run hbody
    refine ((hsame.trans hsame').adds.unmarked.trans (hrepeated.marks.trans (h₃.trans
      (hsplice.unmarked.trans hadds.unmarked)))).mono ?_ fun hok => ?_
    · rw [Statement.marks, List.nil_append, List.append_nil, List.append_nil]
      exact List.Subperm.refl _
    · rw [Statement.copies] at hok
      exact ⟨trivial, trivial, hok, trivial, trivial⟩
  | .forLoop span counter start stop byStep body, loop, points, s => by
    refine After.mono (forLoop_spec a returnTarget loop span counter start stop byStep body points s)
      fun ends s' h => ?_
    obtain ⟨s₀, points', s₁, predicate, enter, exit, guard, s₂, latch, s₃, bodyEnds, s₄, increment,
      hsame, hconditioned, -, hforked, hlatched, hbody, -, hadds, -⟩ := h
    have h₃ := hlatched.marks hforked.predicate_mem
    have h₄ := (buildSequence_marks body _ _ s₃).of_run hbody
    refine (hsame.adds.unmarked.trans (hconditioned.unmarked.trans (hforked.marks.trans
      (h₃.trans (h₄.trans hadds.unmarked))))).mono ?_ fun hok => ?_
    · rw [Statement.marks, List.nil_append, List.nil_append, List.append_nil]
      exact (List.Perm.swap span stop.span (marksOf body)).subperm
    · rw [Statement.copies] at hok
      exact ⟨trivial, trivial, trivial, trivial, hok, trivial⟩
  | .exitLoop span, loop, points, s => by
    cases loop with
    | none =>
      refine After.bind (addDiagnostic_same _ s) fun _ s₁ h₁ => ?_
      exact After.pure h₁.adds.unmarked.always
    | some context =>
      refine After.bind (addLoopControl_spec _ _ _ _ _ s) fun _ s₁ h₁ => ?_
      obtain ⟨id, node, -, -, hadds⟩ := h₁
      exact After.pure hadds.unmarked.always
  | .continueLoop span, loop, points, s => by
    cases loop with
    | none =>
      refine After.bind (addDiagnostic_same _ s) fun _ s₁ h₁ => ?_
      exact After.pure h₁.adds.unmarked.always
    | some context =>
      refine After.bind (addLoopControl_spec _ _ _ _ _ s) fun _ s₁ h₁ => ?_
      obtain ⟨id, node, -, -, hadds⟩ := h₁
      exact After.pure hadds.unmarked.always
  | .returnPou span, loop, points, s => by
    refine After.bind (addLoopControl_spec _ _ _ _ _ s) fun _ s₁ h₁ => ?_
    obtain ⟨id, node, -, -, hadds⟩ := h₁
    exact After.pure hadds.unmarked.always
  | .assignment span left right, _, points, s =>
    After.mono (buildSimple_marks a (.assignment span left right) points s)
      fun _ _ h => h.always
  | .call call, _, points, s =>
    After.mono (buildSimple_marks a (.call call) points s)
      fun _ _ h => h.always
  | .allocation span name typeName, _, points, s =>
    After.mono (buildSimple_marks a (.allocation span name typeName) points s)
      fun _ _ h => h.always
  | .empty span, _, points, s =>
    After.mono (buildSimple_marks a (.empty span) points s)
      fun _ _ h => h.always
  | .preserved span astKind, _, points, s =>
    After.mono (buildSimple_marks a (.preserved span astKind) points s)
      fun _ _ h => h.always

theorem buildSequence_marks : ∀ (statements : List Statement) (loop : Option LoopContext)
    (points : List FlowPoint) (s : Builder),
    After (buildSequence a returnTarget loop statements points) s fun _ s' =>
      Marks (marksOf statements) (copiesIn statements = false) s s'
  | [], _, _, s => After.pure (Marks.refl s).always
  | statement :: rest, loop, points, s => by
    refine After.bind (buildStatement_marks statement loop points s) fun points₁ s₁ h₁ => ?_
    refine After.mono (buildSequence_marks rest loop points₁ s₁) fun _ s₂ h₂ => ?_
    refine (h₁.trans h₂).mono ?_ fun hok => ?_
    · rw [marksOf]
    · rw [copiesIn, Bool.or_eq_false_iff] at hok
      exact hok

theorem buildIfBlocks_marks : ∀ (blocks : List ConditionalBlock) (loop : Option LoopContext)
    (index : ℕ) (hasElse : Bool) (points : List FlowPoint) (s : Builder),
    After (buildIfBlocks a returnTarget loop index hasElse blocks points) s fun _ s' =>
      Marks (marksOfBlocks (fun condition => [condition]) blocks)
        (copiesInBranches (fun _ => 1) blocks = false) s s'
  | [], _, _, _, _, s => After.pure (Marks.refl s).always
  | ⟨condition, body⟩ :: rest, loop, index, hasElse, points, s => by
    refine After.mono (ifBlock_spec a returnTarget loop index hasElse condition body rest points s)
      fun result s' h => ?_
    obtain ⟨points', s₁, predicate, whenTrue, whenFalse, s₂, bodyEnds, s₃, falsePoint, s₄, result',
      hconditioned, hforked, hbody, helse, hrest, -⟩ := h
    have h₃ := (buildSequence_marks body loop _ s₂).of_run hbody
    have h₅ := (buildIfBlocks_marks rest loop _ hasElse _ s₄).of_run hrest
    obtain ⟨nodes, branches, -, -, hadds⟩ := hforked.adds
    have hpredicate : predicate ∈ s₃.nodeIds := h₃.mem_nodeIds hforked.predicate_mem
    -- the entry of the ELSE has a mark of the same predicate at the same place
    have hbranch : Marks ([condition.span] ++ marksOf body) (copiesIn body = false) s₁ s₄ := by
      rcases helse with ⟨-, rfl⟩ | ⟨node, -, -, hadds'⟩
      · exact hadds.around predicate (by simp) h₃ (SameGraph.refl s₄).adds (by simp)
          hforked.counted id
      · exact hadds.around predicate (by simp) h₃ hadds' (by simp) hforked.counted
          (hadds'.counted (by simpa using hpredicate))
    refine (hconditioned.unmarked.trans (hbranch.trans h₅)).mono ?_ fun hok => ?_
    · rw [marksOfBlocks, List.nil_append, List.append_assoc, List.map_singleton]
    · rw [copiesInBranches, Bool.or_eq_false_iff] at hok
      exact ⟨trivial, hok⟩

theorem buildCaseBlocks_marks : ∀ (blocks : List ConditionalBlock) (loop : Option LoopContext)
    (predicate : NodeId) (selector : TypedExpression) (blockIndex : ℕ) (s : Builder),
    predicate ∈ s.nodeIds →
    After (buildCaseBlocks a returnTarget loop predicate selector blockIndex blocks) s fun _ s' =>
      Marks (marksOfBlocks caseLabels blocks)
        (copiesInBranches (fun condition => (caseLabels condition).length) blocks = false) s s'
  | [], _, _, _, _, s, _ => After.pure (Marks.refl s).always
  | ⟨condition, body⟩ :: rest, loop, predicate, selector, blockIndex, s, hpredicate => by
    refine After.mono (caseBlock_spec a returnTarget loop predicate selector blockIndex condition body
      rest s) fun result s' h => ?_
    obtain ⟨result₁, s₁, result₂, hlabels, hrest, -⟩ := h
    have hbody : ∀ outcome s, After (buildSequence a returnTarget loop body [⟨outcome, []⟩]) s
        fun _ s' => Marks (marksOf body) (copiesIn body = false) s s' :=
      fun outcome s => buildSequence_marks body loop _ s
    have h₁ := (buildLabels_marks hbody _ _ s hpredicate).of_run hlabels
    have h₂ := (buildCaseBlocks_marks rest loop predicate selector (blockIndex + 1) s₁
      (h₁.mem_nodeIds hpredicate)).of_run hrest
    rw [marksOfBlocks, ← List.append_assoc, copiesInBranches]
    by_cases hcontrols : controlsIn body = false
    · have hnil := marksOf_eq_nil body hcontrols
      rw [hnil] at hbody ⊢
      have h₁' := (buildLabels_unmarked (fun outcome s => After.mono (hbody outcome s)
        fun _ _ h => h.of_nil) _ _ s hpredicate).of_run hlabels
      refine (h₁'.trans h₂).mono ?_ fun hok => ?_
      · rw [List.append_nil]
      · rw [Bool.or_eq_false_iff] at hok
        exact ⟨trivial, hok.2⟩
    · refine (h₁.trans h₂).mono (List.Subperm.refl _) fun hok => ?_
      rw [Bool.or_eq_false_iff] at hok
      refine ⟨?_, hok.2⟩
      have hbranch := hok.1
      split at hbranch
      · rename_i hlength
        exact ⟨by omega, fun hne => absurd (List.eq_nil_of_length_eq_zero hlength) hne⟩
      · rename_i hlength
        exact ⟨by omega, fun _ => hbranch⟩
      · exact absurd hbranch hcontrols

end

end

end SemantiST.Stg
