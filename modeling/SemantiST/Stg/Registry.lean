import SemantiST.Lib.State
import SemantiST.Stg.Extract

/-!
# The expressions of a graph

Every expression gets an identifier of its own: the entry of a tree node stands alone at its place
with its kind, and an expression that the builder makes is counted among all of its kind.
-/

namespace SemantiST.Stg

open Lib Semantic

variable {roots : List AstExpr} {s s' s'' : Builder}

/-! ## Parts of the state -/

/-- The nodes, edges and targets are the same. -/
structure SameGraph (s s' : Builder) : Prop where
  nodes : s'.nodes = s.nodes
  nodeOrdinals : s'.nodeOrdinals = s.nodeOrdinals
  edges : s'.edges = s.edges
  edgeOrdinal : s'.edgeOrdinal = s.edgeOrdinal
  targets : s'.targets = s.targets

theorem SameGraph.refl (s : Builder) : SameGraph s s := ⟨rfl, rfl, rfl, rfl, rfl⟩

theorem SameGraph.trans (h : SameGraph s s') (h' : SameGraph s' s'') : SameGraph s s'' :=
  ⟨h'.nodes.trans h.nodes, h'.nodeOrdinals.trans h.nodeOrdinals, h'.edges.trans h.edges,
    h'.edgeOrdinal.trans h.edgeOrdinal, h'.targets.trans h.targets⟩

/-- The expressions are the same. -/
structure SameExpressions (s s' : Builder) : Prop where
  expressions : s'.expressions = s.expressions
  byAst : s'.expressionByAst = s.expressionByAst
  counts : s'.expressionKeyCounts = s.expressionKeyCounts

theorem SameExpressions.refl (s : Builder) : SameExpressions s s := ⟨rfl, rfl, rfl⟩

theorem SameExpressions.trans (h : SameExpressions s s') (h' : SameExpressions s' s'') :
    SameExpressions s s'' :=
  ⟨h'.expressions.trans h.expressions, h'.byAst.trans h.byAst, h'.counts.trans h.counts⟩

/-! ## The invariant -/

/-- An expression and all that is below it have entries. -/
def Registered (s : Builder) (e : AstExpr) : Prop := ∀ e' ∈ e.nodes, e'.id ∈ s.expressionByAst

/-- How many entries are of a kind. -/
def kindCount (s : Builder) (name : Text) : ℕ :=
  s.expressions.countP fun entry => expressionKindName entry.expression.kind == name

structure Registry (roots : List AstExpr) (s : Builder) : Prop where
  kinds : ∀ entry ∈ s.expressions, entry.id.kind = expressionKindName entry.expression.kind
  ordinals : ∀ entry ∈ s.expressions, entry.id.ordinal < kindCount s entry.id.kind
  sources : ∀ entry ∈ s.expressions, ∀ e, entry.expression = .source e →
    e ∈ nodesOfAll roots ∧ entry.id.span = e.span ∧ e.id ∈ s.expressionByAst
  counts : ∀ key, s.expressionKeyCounts key ≠ 0 → ∃ e ∈ nodesOfAll roots,
    e.id ∈ s.expressionByAst ∧ (e.span, expressionKindName e.kind.expressionKind, e.typeName) = key
  synthetics : ∀ entry ∈ s.expressions, ∀ id kind typeName operands,
    entry.expression = .synthetic id kind typeName operands →
    ∃ root ∈ roots, entry.id.span = root.span ∧ Registered s root
  closed : ∀ e ∈ nodesOfAll roots, e.id ∈ s.expressionByAst → Registered s e
  nodup : (s.expressions.map ExpressionEntry.id).Nodup

/-- What a step of the builder does to the expressions. -/
structure RegistryStep (roots : List AstExpr) (s s' : Builder) : Prop where
  registry : Registry roots s'
  grows : s.expressionByAst ⊆ s'.expressionByAst

theorem Registered.mono {e : AstExpr} (h : Registered s e)
    (hgrows : s.expressionByAst ⊆ s'.expressionByAst) : Registered s' e :=
  fun e' he' => hgrows (h e' he')

theorem Registry.of_same (h : Registry roots s) (hsame : SameExpressions s s') :
    RegistryStep roots s s' := by
  obtain ⟨hexpressions, hbyAst, hcounts⟩ := hsame
  refine ⟨⟨?_, ?_, ?_, ?_, ?_, ?_, ?_⟩, by rw [hbyAst]; exact List.Subset.refl _⟩
  · rw [hexpressions]; exact h.kinds
  · simp only [kindCount, hexpressions]; exact h.ordinals
  · rw [hexpressions, hbyAst]; exact h.sources
  · rw [hcounts, hbyAst]; exact h.counts
  · simp only [Registered, hexpressions, hbyAst]; exact h.synthetics
  · simp only [Registered, hbyAst]; exact h.closed
  · rw [hexpressions]; exact h.nodup

theorem registry_empty (roots : List AstExpr) : Registry roots {} where
  kinds entry h := by cases h
  ordinals entry h := by cases h
  sources entry h := by cases h
  counts key h := absurd rfl h
  synthetics entry h := by cases h
  closed e _ h := by cases h
  nodup := List.nodup_nil

/-! ## New entries -/

theorem kindCount_concat {entry : ExpressionEntry} (name : Text)
    (h : s'.expressions = s.expressions ++ [entry]) :
    kindCount s' name =
      kindCount s name + if expressionKindName entry.expression.kind = name then 1 else 0 := by
  unfold kindCount
  rw [h, List.countP_append, List.countP_singleton]
  simp only [beq_iff_eq]

/-- A new entry whose identifier is new. -/
theorem Registry.ordinals_concat (h : Registry roots s) {entry : ExpressionEntry}
    (hs' : s'.expressions = s.expressions ++ [entry])
    (hkind : entry.id.kind = expressionKindName entry.expression.kind)
    (hordinal : entry.id.ordinal ≤ kindCount s entry.id.kind) :
    ∀ entry' ∈ s'.expressions, entry'.id.ordinal < kindCount s' entry'.id.kind := by
  intro entry' hmem
  rw [hs'] at hmem
  rw [kindCount_concat _ hs']
  rcases List.mem_append.1 hmem with hmem | hmem
  · have := h.ordinals entry' hmem
    omega
  · obtain rfl := List.mem_singleton.1 hmem
    rw [if_pos hkind.symm]
    omega

theorem pushExpression_spec (hplaced : Placed roots) (h : Registry roots s) {e : AstExpr}
    (he : e ∈ nodesOfAll roots) (hnew : e.id ∉ s.expressionByAst)
    (hbelow : ∀ e' ∈ e.nodes, e' = e ∨ e'.id ∈ s.expressionByAst) :
    After (pushExpression e) s fun _ s' => Registry roots s' ∧ SameGraph s s' ∧
      s'.hazardByExpression = s.hazardByExpression ∧
      s'.expressionByAst = s.expressionByAst ++ [e.id] := by
  apply After.modify
  -- nothing was entered at this place with this kind
  have hzero : s.expressionKeyCounts
      (e.span, expressionKindName e.kind.expressionKind, e.typeName) = 0 := by
    by_contra hne
    obtain ⟨e', he', hreg, hkey⟩ := h.counts _ hne
    rw [Prod.mk.injEq, Prod.mk.injEq] at hkey
    rw [hplaced.eq_of_span he' he hkey.1 hkey.2.1] at hreg
    exact hnew hreg
  have hfresh : ∀ entry ∈ s.expressions, entry.id ≠
      ⟨e.span, expressionKindName e.kind.expressionKind, 0⟩ := by
    intro entry hentry hid
    cases hexpr : entry.expression with
    | source e' =>
      obtain ⟨he', hspan, hreg⟩ := h.sources entry hentry e' hexpr
      have hkind := h.kinds entry hentry
      rw [hexpr] at hkind
      have heq : e' = e := hplaced.eq_of_span he' he (hspan.symm.trans (by rw [hid]))
        (hkind.symm.trans (by rw [hid]))
      exact hnew (heq ▸ hreg)
    | synthetic id kind typeName operands =>
      obtain ⟨root, hroot, hspan, hreg⟩ := h.synthetics entry hentry _ _ _ _ hexpr
      exact hnew (hreg e (hplaced.rootSpan root hroot e he (by rw [← hspan, hid])))
  simp only [hzero]
  refine ⟨⟨?_, ?_, ?_, ?_, ?_, ?_, ?_⟩, ⟨rfl, rfl, rfl, rfl, rfl⟩, trivial, trivial⟩
  · intro entry hentry
    rcases List.mem_append.1 hentry with hentry | hentry
    · exact h.kinds entry hentry
    · rw [List.mem_singleton.1 hentry]
      rfl
  · exact h.ordinals_concat rfl rfl (Nat.zero_le _)
  · intro entry hentry e' hexpr
    rcases List.mem_append.1 hentry with hentry | hentry
    · obtain ⟨he', hspan, hreg⟩ := h.sources entry hentry e' hexpr
      exact ⟨he', hspan, List.mem_append_left _ hreg⟩
    · rw [List.mem_singleton.1 hentry] at hexpr ⊢
      obtain rfl := TypedExpression.source.inj hexpr
      exact ⟨he, rfl, List.mem_append_right _ (List.mem_singleton_self _)⟩
  · intro key hkey
    simp only [Function.update_apply] at hkey
    split at hkey
    · rename_i heq
      exact ⟨e, he, List.mem_append_right _ (List.mem_singleton_self _), heq.symm⟩
    · obtain ⟨e', he', hreg, hkey⟩ := h.counts key hkey
      exact ⟨e', he', List.mem_append_left _ hreg, hkey⟩
  · intro entry hentry id kind typeName operands hexpr
    rcases List.mem_append.1 hentry with hentry | hentry
    · obtain ⟨root, hroot, hspan, hreg⟩ := h.synthetics entry hentry _ _ _ _ hexpr
      exact ⟨root, hroot, hspan, fun e' he' => List.mem_append_left _ (hreg e' he')⟩
    · rw [List.mem_singleton.1 hentry] at hexpr
      cases hexpr
  · intro e' he' hreg e'' he''
    rcases List.mem_append.1 hreg with hreg | hreg
    · exact List.mem_append_left _ (h.closed e' he' hreg e'' he'')
    · obtain rfl := hplaced.eq_of_id he' he (List.mem_singleton.1 hreg)
      rcases hbelow e'' he'' with rfl | hreg'
      · exact List.mem_append_right _ (List.mem_singleton_self _)
      · exact List.mem_append_left _ hreg'
  · rw [List.map_append, List.map_singleton, List.nodup_append']
    refine ⟨h.nodup, List.nodup_singleton _, ?_⟩
    intro id hid hid'
    obtain ⟨entry, hentry, rfl⟩ := List.mem_map.1 hid
    exact hfresh entry hentry (List.mem_singleton.1 hid')

/-- What registering some expressions does. -/
structure Registers (roots es : List AstExpr) (s s' : Builder) : Prop where
  registry : Registry roots s'
  same : SameGraph s s'
  hazards : s'.hazardByExpression = s.hazardByExpression
  grows : s.expressionByAst ⊆ s'.expressionByAst
  all : ∀ e ∈ nodesOfAll es, e.id ∈ s'.expressionByAst
  only : ∀ id ∈ s'.expressionByAst, id ∈ s.expressionByAst ∨ ∃ e ∈ nodesOfAll es, e.id = id

mutual

theorem registerExpression_spec (hplaced : Placed roots) : ∀ (e : AstExpr) (s : Builder),
    Registry roots s → e ∈ nodesOfAll roots →
    After (registerExpression e) s fun _ s' => Registers roots [e] s s'
  | ⟨id, span, kind, typeName, operands⟩, s, h, he => by
    rw [registerExpression]
    apply After.get_bind
    apply After.ite
    · intro hknown
      have hreg := h.closed _ he (List.contains_iff_mem.1 hknown)
      refine After.pure ⟨h, .refl s, rfl, List.Subset.refl _, fun e' he' => hreg e' ?_, fun id hid => .inl hid⟩
      simpa [nodesOfAll] using he'
    · intro hunknown
      have hnew : id ∉ s.expressionByAst := fun hmem => hunknown (List.contains_iff_mem.2 hmem)
      have hsub := nodes_sublist_nodesOfAll roots _ he
      have hnodup := hplaced.nodupIds.sublist (hsub.map AstExpr.id)
      rw [AstExpr.nodes, List.map_cons, List.nodup_cons] at hnodup
      rw [AstExpr.nodes] at hsub
      refine After.bind (registerExpressions_spec hplaced operands s h
        fun e' he' => hsub.subset (List.mem_cons_of_mem _ he')) fun _ s₁ h₁ => ?_
      have hnew₁ : id ∉ s₁.expressionByAst := by
        intro hmem
        rcases h₁.only id hmem with hmem | ⟨e', he', hid⟩
        · exact hnew hmem
        · exact hnodup.1 (List.mem_map.2 ⟨e', he', hid⟩)
      refine After.mono (pushExpression_spec hplaced h₁.registry he hnew₁ fun e' he' => ?_)
        fun _ s₂ h₂ => ?_
      · rw [AstExpr.nodes] at he'
        rcases List.mem_cons.1 he' with rfl | he'
        · exact .inl rfl
        · exact .inr (h₁.all e' he')
      · obtain ⟨hregistry, hsame, hhazards, hbyAst⟩ := h₂
        refine ⟨hregistry, h₁.same.trans hsame, hhazards.trans h₁.hazards, ?_, ?_, ?_⟩
        · rw [hbyAst]
          exact fun id' hid' => List.mem_append_left _ (h₁.grows hid')
        · intro e' he'
          rw [nodesOfAll, nodesOfAll, List.append_nil, AstExpr.nodes] at he'
          rw [hbyAst]
          rcases List.mem_cons.1 he' with rfl | he'
          · exact List.mem_append_right _ (List.mem_singleton_self _)
          · exact List.mem_append_left _ (h₁.all e' he')
        · intro id' hid'
          rw [nodesOfAll, nodesOfAll, List.append_nil, AstExpr.nodes]
          rw [hbyAst] at hid'
          rcases List.mem_append.1 hid' with hid' | hid'
          · rcases h₁.only id' hid' with hid' | ⟨e', he', hid'⟩
            · exact .inl hid'
            · exact .inr ⟨e', List.mem_cons_of_mem _ he', hid'⟩
          · exact .inr ⟨_, List.mem_cons_self, (List.mem_singleton.1 hid').symm⟩

theorem registerExpressions_spec (hplaced : Placed roots) : ∀ (es : List AstExpr) (s : Builder),
    Registry roots s → (∀ e ∈ nodesOfAll es, e ∈ nodesOfAll roots) →
    After (registerExpressions es) s fun _ s' => Registers roots es s s'
  | [], s, h, _ => by
    exact After.pure ⟨h, .refl s, rfl, List.Subset.refl _, (fun e he => by cases he),
      fun id hid => .inl hid⟩
  | e :: es, s, h, hes => by
    rw [registerExpressions]
    rw [nodesOfAll] at hes
    refine After.bind (registerExpression_spec hplaced e s h
      (hes e (List.mem_append_left _ (mem_nodes_self e)))) fun _ s₁ h₁ => ?_
    refine After.mono (registerExpressions_spec hplaced es s₁ h₁.registry
      fun e' he' => hes e' (List.mem_append_right _ he')) fun _ s₂ h₂ => ?_
    refine ⟨h₂.registry, h₁.same.trans h₂.same, h₂.hazards.trans h₁.hazards,
      List.Subset.trans h₁.grows h₂.grows, fun e' he' => ?_, fun id hid => ?_⟩
    · rw [nodesOfAll] at he'
      rcases List.mem_append.1 he' with he' | he'
      · exact h₂.grows (h₁.all e' (by simpa [nodesOfAll] using he'))
      · exact h₂.all e' he'
    · rw [nodesOfAll]
      rcases h₂.only id hid with hid | ⟨e', he', hid⟩
      · rcases h₁.only id hid with hid | ⟨e', he', hid⟩
        · exact .inl hid
        · exact .inr ⟨e', List.mem_append_left _ (by simpa [nodesOfAll] using he'), hid⟩
      · exact .inr ⟨e', List.mem_append_right _ he', hid⟩

end

/-- A place where the builder may make an expression. -/
def Located (roots : List AstExpr) (s : Builder) (location : SourceSpan) : Prop :=
  ∃ root ∈ roots, location = root.span ∧ Registered s root

theorem Located.mono {location : SourceSpan} (h : Located roots s location)
    (hgrows : s.expressionByAst ⊆ s'.expressionByAst) : Located roots s' location := by
  obtain ⟨root, hroot, hlocation, hreg⟩ := h
  exact ⟨root, hroot, hlocation, hreg.mono hgrows⟩

theorem syntheticExpression_spec (h : Registry roots s) {location : SourceSpan}
    (hlocation : Located roots s location) (kind : ExpressionKind)
    (operands : List TypedExpression) (typeName : Text) :
    After (syntheticExpression kind operands typeName location) s fun _ s' =>
      Registry roots s' ∧ SameGraph s s' ∧ s'.hazardByExpression = s.hazardByExpression ∧
        s'.expressionByAst = s.expressionByAst := by
  apply After.get_bind
  apply After.set_bind
  refine After.pure ⟨⟨?_, ?_, ?_, h.counts, ?_, h.closed, ?_⟩, ⟨rfl, rfl, rfl, rfl, rfl⟩, rfl, rfl⟩
  · intro entry hentry
    rcases List.mem_append.1 hentry with hentry | hentry
    · exact h.kinds entry hentry
    · rw [List.mem_singleton.1 hentry]
      rfl
  · exact h.ordinals_concat rfl rfl (Nat.le_refl _)
  · intro entry hentry e hexpr
    rcases List.mem_append.1 hentry with hentry | hentry
    · exact h.sources entry hentry e hexpr
    · rw [List.mem_singleton.1 hentry] at hexpr
      cases hexpr
  · intro entry hentry id kind' typeName' operands' hexpr
    rcases List.mem_append.1 hentry with hentry | hentry
    · exact h.synthetics entry hentry _ _ _ _ hexpr
    · rw [List.mem_singleton.1 hentry]
      exact hlocation
  · rw [List.map_append, List.map_singleton, List.nodup_append']
    refine ⟨h.nodup, List.nodup_singleton _, ?_⟩
    intro id hid hid'
    obtain ⟨entry, hentry, rfl⟩ := List.mem_map.1 hid
    have hordinal := h.ordinals entry hentry
    rw [List.mem_singleton.1 hid'] at hordinal
    exact Nat.lt_irrefl _ hordinal

end SemantiST.Stg
