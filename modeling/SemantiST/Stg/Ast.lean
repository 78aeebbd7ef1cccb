import SemantiST.Lib.Sort
import SemantiST.Semantic.Expression

/-!
# The bodies of program organisation units

The syntax trees the graph builder (`compiler/stg/src/extract.rs`) gets from the compiler: every
node has an identifier and a place in the source text.  What the compiler's annotations say of a
node (its type, its qualified name) stands in the node.
-/

namespace SemantiST.Stg

open Lib Semantic

structure SourceSpan where
  startOffset : ℕ
  endOffset : ℕ
deriving DecidableEq

inductive ReferenceAccess where
  | member (name : Option Text)
  | index
  | cast (targetType : Option Text)
  | deref
  | address
deriving DecidableEq

inductive AstKind where
  | literal (value : LiteralValue)
  | identifier (qualifiedName : Text)
  | binary (operator : Text)
  | unary (operator : Text)
  | paren
  | caseCondition
  | expressionList
  | range
  | reference (access : ReferenceAccess) (qualifiedName : Option Text)
  | directAccess (widthBits : ℕ)
  | hardwareAccess
  | call (callee : Option Text) (effectReads : List Text)
  | assignment
  | other (astKind : Text)
deriving DecidableEq

/-- An expression; the operands stand in the order in which the builder visits them. -/
structure AstExpr where
  id : ℕ
  span : SourceSpan
  kind : AstKind
  typeName : Text
  operands : List AstExpr := []

mutual

inductive Statement where
  | assignment (span : SourceSpan) (left right : AstExpr)
  | call (call : AstExpr)
  | allocation (span : SourceSpan) (name typeName : Text)
  | empty (span : SourceSpan)
  | preserved (span : SourceSpan) (astKind : Text)
  | exitLoop (span : SourceSpan)
  | continueLoop (span : SourceSpan)
  | returnPou (span : SourceSpan)
  | ifs (span : SourceSpan) (blocks : List ConditionalBlock) (elseBlock : List Statement)
  | cases (span : SourceSpan) (selector : AstExpr) (caseBlocks : List ConditionalBlock)
      (elseBlock : List Statement)
  | whileLoop (span : SourceSpan) (condition : AstExpr) (body : List Statement)
  | repeatLoop (span : SourceSpan) (condition : AstExpr) (body : List Statement)
  | forLoop (span : SourceSpan) (counter start stop : AstExpr) (byStep : Option AstExpr)
      (body : List Statement)

inductive ConditionalBlock where
  | mk (condition : AstExpr) (body : List Statement)

end

/-! ## Expressions -/

def referenceKind : ReferenceAccess → ExpressionKind
  | .member name => .memberAccess name
  | .index => .arrayIndex
  | .cast targetType => .cast targetType
  | .deref => .pointerDeref
  | .address => .addressOf

/-- The kind the builder gives an expression. -/
def AstKind.expressionKind : AstKind → ExpressionKind
  | .literal value => .literal value
  | .identifier qualifiedName => .variable qualifiedName
  | .binary operator => .binary operator
  | .unary operator => .unary operator
  | .paren | .expressionList | .assignment => .list
  | .caseCondition => .caseCondition
  | .range => .range
  | .reference access _ => referenceKind access
  | .directAccess widthBits => .directAccess widthBits
  | .hardwareAccess => .hardwareAccess
  | .call callee _ => .call callee
  | .other astKind => .other astKind

def expressionKindName : ExpressionKind → Text
  | .literal _ => "literal".toList
  | .variable _ => "variable".toList
  | .binary _ => "binary".toList
  | .unary _ => "unary".toList
  | .call _ => "call".toList
  | .arrayIndex => "array_index".toList
  | .memberAccess _ => "member_access".toList
  | .pointerDeref => "pointer_deref".toList
  | .addressOf => "address_of".toList
  | .cast _ => "cast".toList
  | .directAccess _ => "direct_access".toList
  | .hardwareAccess => "hardware_access".toList
  | .range => "range".toList
  | .list => "list".toList
  | .caseCondition => "case_condition".toList
  | .other _ => "opaque".toList

def unresolved : Text := "<unresolved>".toList

/-- The names an expression reads of itself. -/
def AstKind.ownReads : AstKind → List Text
  | .identifier name => if name = unresolved then [] else [name]
  | .reference _ name => name.toList
  | .call _ effectReads => effectReads
  | _ => []

mutual

def AstExpr.reads : AstExpr → List Text
  | ⟨_, _, kind, _, operands⟩ => kind.ownReads ++ readsOfAll operands

def readsOfAll : List AstExpr → List Text
  | [] => []
  | e :: es => e.reads ++ readsOfAll es

end

/-- The least name of a set of names. -/
def firstName (names : List Text) : Option Text := minBy compare names

/-- The symbol that an assignment to an expression changes. -/
def expressionVariableName (e : AstExpr) : Option Text :=
  match e.kind with
  | .identifier name => some name
  | .reference (.member _) _ | .reference .index _ | .reference .deref _ | .directAccess _ =>
    firstName e.reads
  | _ => none

/-- The labels of a branch of a CASE. -/
def caseLabels : AstExpr → List AstExpr
  | ⟨id, span, kind, typeName, operands⟩ =>
    match kind, operands with
    | .expressionList, items => items
    | .caseCondition, [inner] => caseLabels inner
    | _, _ => [⟨id, span, kind, typeName, operands⟩]

/-! ## What a body consists of -/

mutual

def AstExpr.nodes : AstExpr → List AstExpr
  | ⟨id, span, kind, typeName, operands⟩ =>
    ⟨id, span, kind, typeName, operands⟩ :: nodesOfAll operands

def nodesOfAll : List AstExpr → List AstExpr
  | [] => []
  | e :: es => e.nodes ++ nodesOfAll es

end

mutual

/-- The expressions that the builder asks for when it builds a statement. -/
def Statement.roots : Statement → List AstExpr
  | .assignment _ left right => [left, right]
  | .call call => [call]
  | .allocation _ _ _ | .empty _ | .preserved _ _ | .exitLoop _ | .continueLoop _ | .returnPou _ => []
  | .ifs _ blocks elseBlock => rootsOfBlocks (fun condition => [condition]) blocks ++ rootsOf elseBlock
  | .cases _ selector blocks elseBlock =>
    selector :: (rootsOfBlocks caseLabels blocks ++ rootsOf elseBlock)
  | .whileLoop _ condition body | .repeatLoop _ condition body => condition :: rootsOf body
  | .forLoop _ counter start stop byStep body =>
    counter :: start :: stop :: (byStep.toList ++ rootsOf body)

def rootsOf : List Statement → List AstExpr
  | [] => []
  | s :: rest => s.roots ++ rootsOf rest

def rootsOfBlocks (split : AstExpr → List AstExpr) : List ConditionalBlock → List AstExpr
  | [] => []
  | ⟨condition, body⟩ :: rest => split condition ++ (rootsOf body ++ rootsOfBlocks split rest)

end

mutual

/-- The spans of a statement and of the statements in it; a call has that of its expression. -/
def Statement.spans : Statement → List SourceSpan
  | .ifs span blocks elseBlock | .cases span _ blocks elseBlock =>
    span :: (spansOfBlocks blocks ++ spansOf elseBlock)
  | .whileLoop span _ body | .repeatLoop span _ body | .forLoop span _ _ _ _ body =>
    span :: spansOf body
  | .call _ => []
  | .assignment span _ _ | .allocation span _ _ | .empty span | .preserved span _ | .exitLoop span
  | .continueLoop span | .returnPou span => [span]

def spansOf : List Statement → List SourceSpan
  | [] => []
  | s :: rest => s.spans ++ spansOf rest

def spansOfBlocks : List ConditionalBlock → List SourceSpan
  | [] => []
  | ⟨_, body⟩ :: rest => spansOf body ++ spansOfBlocks rest

end

/-- Expressions as the compiler hands them over: they have identifiers of their own, and where two of
them have one span, one wraps the other and is of another kind. -/
structure Placed (roots : List AstExpr) : Prop where
  nodupIds : ((nodesOfAll roots).map AstExpr.id).Nodup
  nodupSpans : ((nodesOfAll roots).map fun e =>
    (e.span, expressionKindName e.kind.expressionKind)).Nodup
  rootSpan : ∀ root ∈ roots, ∀ e ∈ nodesOfAll roots, e.span = root.span → e ∈ root.nodes

/-- A program organisation unit.  A statement shares its span with no other statement and with no
expression of its own. -/
structure Pou where
  stateful : Bool
  span : SourceSpan
  initialValues : List AstExpr
  statements : List Statement
  placed : Placed (initialValues ++ rootsOf statements)
  nodupStatements : (spansOf statements).Nodup
  statementSpan : ∀ span ∈ spansOf statements, ∀ root ∈ rootsOf statements, root.span ≠ span

/-- The expressions that the builder asks for. -/
def Pou.roots (pou : Pou) : List AstExpr := pou.initialValues ++ rootsOf pou.statements

/-! ## Nodes of expressions -/

theorem mem_nodes_self (e : AstExpr) : e ∈ e.nodes := by
  rcases e with ⟨id, span, kind, typeName, operands⟩
  rw [AstExpr.nodes]
  exact List.mem_cons_self

theorem nodesOfAll_append (es es' : List AstExpr) :
    nodesOfAll (es ++ es') = nodesOfAll es ++ nodesOfAll es' := by
  induction es with
  | nil => rfl
  | cons e es ih => rw [List.cons_append, nodesOfAll, nodesOfAll, ih, List.append_assoc]

theorem nodes_sublist {e : AstExpr} {es : List AstExpr} (h : e ∈ es) :
    e.nodes.Sublist (nodesOfAll es) := by
  induction es with
  | nil => cases h
  | cons e' es ih =>
    rw [nodesOfAll]
    rcases List.mem_cons.1 h with rfl | h
    · exact List.sublist_append_left _ _
    · exact (ih h).trans (List.sublist_append_right _ _)

/-- What is below a node is below the expressions that hold it. -/
theorem nodes_sublist_nodesOfAll : ∀ (es : List AstExpr) (e' : AstExpr), e' ∈ nodesOfAll es →
    e'.nodes.Sublist (nodesOfAll es)
  | [], e', h => by cases h
  | ⟨id, span, kind, typeName, operands⟩ :: es, e', h => by
    rw [nodesOfAll] at h ⊢
    rcases List.mem_append.1 h with h | h
    · refine List.Sublist.trans ?_ (List.sublist_append_left _ _)
      rw [AstExpr.nodes] at h
      rcases List.mem_cons.1 h with rfl | h
      · exact List.Sublist.refl _
      · rw [AstExpr.nodes]
        exact (nodes_sublist_nodesOfAll operands e' h).cons _
    · exact (nodes_sublist_nodesOfAll es e' h).trans (List.sublist_append_right _ _)

theorem mem_nodesOfAll {e : AstExpr} {es : List AstExpr} (h : e ∈ es) : e ∈ nodesOfAll es :=
  (nodes_sublist h).subset (mem_nodes_self e)

namespace Placed

variable {roots : List AstExpr}

theorem eq_of_id (h : Placed roots) {e e' : AstExpr} (he : e ∈ nodesOfAll roots)
    (he' : e' ∈ nodesOfAll roots) (hid : e.id = e'.id) : e = e' :=
  List.inj_on_of_nodup_map h.nodupIds he he' hid

theorem eq_of_span (h : Placed roots) {e e' : AstExpr} (he : e ∈ nodesOfAll roots)
    (he' : e' ∈ nodesOfAll roots) (hspan : e.span = e'.span)
    (hkind : expressionKindName e.kind.expressionKind = expressionKindName e'.kind.expressionKind) :
    e = e' :=
  List.inj_on_of_nodup_map h.nodupSpans he he' (Prod.ext hspan hkind)

/-- Two expressions that the builder asks for stand at two places. -/
theorem nodup_rootSpans (h : Placed roots) : (roots.map AstExpr.span).Nodup := by
  have hstep : ∀ (before after : List AstExpr), roots = before ++ after →
      (after.map AstExpr.span).Nodup := by
    intro before after hroots
    induction after generalizing before with
    | nil => exact List.nodup_nil
    | cons e after ih =>
      rw [List.map_cons, List.nodup_cons]
      refine ⟨fun hmem => ?_, ih (before ++ [e]) (by rw [hroots, List.append_assoc]; rfl)⟩
      obtain ⟨e', he', hspan⟩ := List.mem_map.1 hmem
      have hmem' : e' ∈ roots := by rw [hroots]; simp [he']
      have hroot : e ∈ roots := by rw [hroots]; simp
      have hbelow : e' ∈ e.nodes := h.rootSpan e hroot e' (mem_nodesOfAll hmem') hspan
      have hnodup := h.nodupIds
      rw [hroots, nodesOfAll_append, nodesOfAll, List.map_append, List.map_append] at hnodup
      have hdisjoint := (List.nodup_append'.1 (List.nodup_append'.1 hnodup).2.1).2.2
      exact hdisjoint (List.mem_map_of_mem hbelow) (List.mem_map_of_mem (mem_nodesOfAll he'))
  exact hstep [] roots rfl

end Placed

end SemantiST.Stg
