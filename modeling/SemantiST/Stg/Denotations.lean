import SemantiST.Stg.Meaning

/-!
# What denotations are made of

The variables an expression looks up for its place and for its value, the variable its place is a part of,
and the forms in which these come from those of its operands.
-/

namespace SemantiST.Stg

open Lib Semantic

/-! ## Trees -/

/-- Induction over an expression and its operands. -/
theorem AstExpr.inductOn {P : AstExpr → Prop} (hstep : ∀ e : AstExpr, (∀ o ∈ e.operands, P o) → P e) :
    ∀ e : AstExpr, P e
  | ⟨id, span, kind, typeName, operands⟩ => hstep _ fun o ho => by
    have hlt : sizeOf o < sizeOf operands := List.sizeOf_lt_of_mem ho
    exact AstExpr.inductOn hstep o
termination_by e => sizeOf e
decreasing_by
  simp_wf
  omega

theorem nodes_operand {e o : AstExpr} (ho : o ∈ e.operands) : o.nodes ⊆ e.nodes := by
  rcases e with ⟨id, span, kind, typeName, operands⟩
  intro e' he'
  rw [AstExpr.nodes]
  exact List.mem_cons_of_mem _ ((nodes_sublist ho).subset he')

section

variable {Cell : Type} (I : Interpretation Cell) (σ : Store Cell)

theorem denoteAll_eq_map (es : List AstExpr) : denoteAll I σ es = es.map (denote I σ) := by
  induction es with
  | nil => rfl
  | cons e es ih => rw [denoteAll, ih, List.map_cons]

theorem denote_eq (e : AstExpr) : denote I σ e =
    ⟨e.kind, heldPlace I e.kind (e.operands.map (denote I σ)), placeOf I σ e.kind (e.operands.map (denote I σ)),
      valueOf I σ e (e.operands.map (denote I σ))⟩ := by
  rcases e with ⟨id, span, kind, typeName, operands⟩
  rw [denote, denoteAll_eq_map]

theorem denote_kind (e : AstExpr) : (denote I σ e).kind = e.kind := by rw [denote_eq]

theorem denote_held (e : AstExpr) :
    (denote I σ e).held = heldPlace I e.kind (e.operands.map (denote I σ)) := by rw [denote_eq]

theorem denote_place (e : AstExpr) :
    (denote I σ e).place = placeOf I σ e.kind (e.operands.map (denote I σ)) := by rw [denote_eq]

theorem denote_value (e : AstExpr) :
    (denote I σ e).value = valueOf I σ e (e.operands.map (denote I σ)) := by rw [denote_eq]

end

theorem evaluated_map {α β : Type} {kindOf : α → AstKind} {kindOf' : β → AstKind} {f : α → β}
    (hkind : ∀ x, kindOf' (f x) = kindOf x) (kind : AstKind) (operands : List α) :
    evaluated kindOf' kind (operands.map f) = (evaluated kindOf kind operands).map f := by
  unfold evaluated
  split
  · rename_i hoperands
    obtain ⟨base, rest, rfl, rfl, hrest⟩ := List.map_eq_cons_iff.1 hoperands
    obtain ⟨inner, rest', rfl, rfl, hnil⟩ := List.map_eq_cons_iff.1 hrest
    rw [List.map_eq_nil_iff.1 hnil, hkind]
    by_cases haccess : (kindOf inner).isDirectAccess = true
    · simp [haccess]
    · simp [haccess]
  · rename_i hother
    split
    · rename_i base inner
      exact absurd rfl (hother _ _ (f base) (f inner) rfl)
    · rfl

theorem evaluated_subset {α : Type} (kindOf : α → AstKind) (kind : AstKind) (operands : List α) :
    evaluated kindOf kind operands ⊆ operands := by
  unfold evaluated
  split
  · rename_i base inner
    split
    · exact List.Subset.refl _
    · simp
  · exact List.Subset.refl _

/-- What an operator computes, where the expression stands for no place. -/
def computed {Cell : Type} (I : Interpretation Cell) (σ : Store Cell) (e : AstExpr) : Value Cell :=
  I.operator e.kind.expressionKind e.typeName
    ((evaluated AstExpr.kind e.kind e.operands).map fun o => (denote I σ o).value)

/-! ## Variables that are looked up -/

/-- The variables that are looked up for where an expression is held, for its place and for its value.
There are none where this takes more than variables that are named: a call, or what is at a place that
a pointer or a reference leads to. -/
structure Uses where
  kind : AstKind
  held : Option (List Text)
  place : Option (List Text)
  value : Option (List Text)

def heldUses (kind : AstKind) (operands : List Uses) : Option (List Text) :=
  match kind, operands with
  | .reference (.member _) _, [inner] => inner.held
  | .reference (.member _) _, [base, inner] =>
    both base.place (if inner.kind.isDirectAccess then inner.value else some [])
  | .reference .index _, [base, index] => both base.place index.value
  | .reference .deref _, [base] => base.value
  | _, _ => some []

def eachUses : List Uses → Option (List Text)
  | [] => some []
  | operand :: operands => both operand.value (eachUses operands)

def ownUses : AstKind → List Text
  | .identifier name => if name = unresolved then [] else [name]
  | _ => []

/-- What is looked up for the content of a place, or for what an operator computes. -/
def contentUses (kind : AstKind) (operands : List Uses) : Option (List Text) :=
  both (some (ownUses kind)) (eachUses (evaluated Uses.kind kind operands))

def placeUses (r : References) (kind : AstKind) (operands : List Uses) : Option (List Text) :=
  match kind, operands with
  | .reference (.member _) _, [inner] => inner.place
  | kind, operands => if kind.follows r then contentUses kind operands else heldUses kind operands

def valueUses (r : References) (kind : AstKind) (operands : List Uses) : Option (List Text) :=
  match kind, operands with
  | .call _ _, _ | .reference .deref _, _ => none
  | .reference .address _, [base] => base.place
  | .reference (.member _) _, [inner] => inner.value
  | kind, operands => if kind.follows r then none else contentUses kind operands

mutual

def AstExpr.uses (r : References) : AstExpr → Uses
  | ⟨_, _, kind, _, operands⟩ =>
    let used := usesOfAll r operands
    ⟨kind, heldUses kind used, placeUses r kind used, valueUses r kind used⟩

def usesOfAll (r : References) : List AstExpr → List Uses
  | [] => []
  | e :: es => e.uses r :: usesOfAll r es

end

section

variable (r : References)

theorem usesOfAll_eq_map (es : List AstExpr) : usesOfAll r es = es.map (AstExpr.uses r) := by
  induction es with
  | nil => rfl
  | cons e es ih => rw [usesOfAll, ih, List.map_cons]

theorem uses_eq (e : AstExpr) : e.uses r =
    ⟨e.kind, heldUses e.kind (e.operands.map (AstExpr.uses r)),
      placeUses r e.kind (e.operands.map (AstExpr.uses r)),
      valueUses r e.kind (e.operands.map (AstExpr.uses r))⟩ := by
  rcases e with ⟨id, span, kind, typeName, operands⟩
  rw [AstExpr.uses, usesOfAll_eq_map]

theorem uses_kind (e : AstExpr) : (e.uses r).kind = e.kind := by rw [uses_eq]

/-- What is looked up for the content of the place of an expression. -/
def AstExpr.content (e : AstExpr) : Option (List Text) := contentUses e.kind (e.operands.map (AstExpr.uses r))

theorem content_eq (e : AstExpr) : e.content r = both (some (ownUses e.kind))
    (eachUses ((evaluated AstExpr.kind e.kind e.operands).map (AstExpr.uses r))) := by
  rw [AstExpr.content, contentUses, evaluated_map (uses_kind r)]

theorem exists_of_eachUses {es : List AstExpr} {names : List Text}
    (h : names ∈ eachUses (es.map (AstExpr.uses r))) :
    ∀ e ∈ es, ∃ names' ∈ (e.uses r).value, names' ⊆ names := by
  induction es generalizing names with
  | nil => simp
  | cons e es ih =>
    obtain ⟨before, hbefore, after, hafter, rfl⟩ := exists_of_both h
    refine List.forall_mem_cons.2 ⟨⟨before, hbefore, List.subset_append_left _ _⟩, fun e' he' => ?_⟩
    obtain ⟨names', hnames', hsubset⟩ := ih hafter e' he'
    exact ⟨names', hnames', List.subset_append_of_subset_right _ hsubset⟩

/-- The content of a place is decided only where the operands that count are. -/
theorem exists_of_content {e : AstExpr} {names : List Text} (h : names ∈ e.content r) :
    ownUses e.kind ⊆ names ∧ ∀ o ∈ evaluated AstExpr.kind e.kind e.operands,
      ∃ names' ∈ (o.uses r).value, names' ⊆ names := by
  rw [content_eq] at h
  obtain ⟨before, hbefore, after, hafter, rfl⟩ := exists_of_both h
  cases hbefore
  refine ⟨List.subset_append_left _ _, fun o ho => ?_⟩
  obtain ⟨names', hnames', hsubset⟩ := exists_of_eachUses r hafter o ho
  exact ⟨names', hnames', List.subset_append_of_subset_right _ hsubset⟩

theorem eachUses_decided {Cell : Type} {I : Interpretation Cell} {es : List AstExpr}
    (h : ∀ e ∈ es, DecidedBy Prod.fst (e.uses r).value fun σ : Store Cell => (denote I σ e).value) :
    DecidedBy Prod.fst (eachUses (es.map (AstExpr.uses r)))
      fun σ : Store Cell => es.map fun e => (denote I σ e).value := by
  induction es with
  | nil => exact DecidedBy.const []
  | cons e es ih =>
    obtain ⟨he, hes⟩ := List.forall_mem_cons.1 h
    exact he.map₂ (ih hes) List.cons

/-- What an operator computes is decided by the operands that count. -/
theorem computed_decided {Cell : Type} {I : Interpretation Cell} {e : AstExpr}
    (h : ∀ o ∈ e.operands, DecidedBy Prod.fst (o.uses r).value fun σ : Store Cell => (denote I σ o).value) :
    DecidedBy Prod.fst (e.content r) fun σ : Store Cell => computed I σ e := by
  rw [content_eq]
  have hoperands := eachUses_decided r fun o ho => h o (evaluated_subset AstExpr.kind e.kind e.operands ho)
  exact (DecidedBy.const ()).map₂ hoperands fun _ values =>
    I.operator e.kind.expressionKind e.typeName values

end

/-! ## Owners -/

/-- What a place is a part of: a variable, or what a pointer or a reference leads to. -/
inductive Owner where
  | named (name : Text)
  | pointee
deriving DecidableEq

structure Owners where
  held : Option Owner
  place : Option Owner

def heldOwner (kind : AstKind) (operands : List Owners) : Option Owner :=
  match kind, operands with
  | .identifier name, _ => if name = unresolved then none else some (.named name)
  | .reference (.member _) _, [inner] => inner.held
  | .reference (.member _) _, [base, _] => base.place
  | .reference .index _, [base, _] => base.place
  | .reference .deref _, [_] => some .pointee
  | _, _ => none

def placeOwner (r : References) (kind : AstKind) (operands : List Owners) : Option Owner :=
  match kind, operands with
  | .reference (.member _) _, [inner] => inner.place
  | kind, operands => (heldOwner kind operands).map fun owner => if kind.follows r then .pointee else owner

mutual

def AstExpr.owners (r : References) : AstExpr → Owners
  | ⟨_, _, kind, _, operands⟩ =>
    let owned := ownersOfAll r operands
    ⟨heldOwner kind owned, placeOwner r kind owned⟩

def ownersOfAll (r : References) : List AstExpr → List Owners
  | [] => []
  | e :: es => e.owners r :: ownersOfAll r es

end

theorem ownersOfAll_eq_map (r : References) (es : List AstExpr) :
    ownersOfAll r es = es.map (AstExpr.owners r) := by
  induction es with
  | nil => rfl
  | cons e es ih => rw [ownersOfAll, ih, List.map_cons]

theorem owners_eq (r : References) (e : AstExpr) : e.owners r =
    ⟨heldOwner e.kind (e.operands.map (AstExpr.owners r)),
      placeOwner r e.kind (e.operands.map (AstExpr.owners r))⟩ := by
  rcases e with ⟨id, span, kind, typeName, operands⟩
  rw [AstExpr.owners, ownersOfAll_eq_map]

/-! ## Forms of places -/

/-- An expression is held somewhere; a reference is followed from there. -/
structure Followed (e : AstExpr) : Prop where
  place : ∀ (Cell : Type) (I : Interpretation Cell) (σ : Store Cell), (denote I σ e).place =
    (denote I σ e).held.bind fun place =>
      if e.kind.follows I.references then I.pointee (place.read σ) else some place
  uses : ∀ r, (e.uses r).place = if e.kind.follows r then e.content r else (e.uses r).held
  owner : ∀ r, (e.owners r).place =
    (e.owners r).held.map fun owner => if e.kind.follows r then .pointee else owner
  unknown : ∀ r, e.kind.follows r = true → (e.uses r).value = none

/-- An expression has the value at its place, or what an operator computes. -/
structure Contained (e : AstExpr) : Prop where
  value : ∀ (Cell : Type) (I : Interpretation Cell) (σ : Store Cell), (denote I σ e).value =
    (denote I σ e).place.elim (computed I σ e) fun place => place.read σ
  uses : ∀ r, e.kind.follows r = false → (e.uses r).value = e.content r

/-- An expression is held nowhere. -/
structure Placeless (e : AstExpr) : Prop where
  held : ∀ (Cell : Type) (I : Interpretation Cell) (σ : Store Cell), (denote I σ e).held = none
  uses : ∀ r, (e.uses r).held = some []
  owner : ∀ r, (e.owners r).held = none

/-- How the place of an expression is made of those of its operands. -/
inductive PlaceForm (e : AstExpr) : Prop where
  | identifier (name : Text) (hkind : e.kind = .identifier name) (hfollowed : Followed e)
      (hcontained : Contained e)
  | wrapper (name qualifiedName : Option Text) (inner : AstExpr)
      (hkind : e.kind = .reference (.member name) qualifiedName) (hoperands : e.operands = [inner])
  | member (name qualifiedName : Option Text) (base inner : AstExpr)
      (hkind : e.kind = .reference (.member name) qualifiedName) (hoperands : e.operands = [base, inner])
      (hfollowed : Followed e) (hcontained : Contained e)
  | element (qualifiedName : Option Text) (base index : AstExpr)
      (hkind : e.kind = .reference .index qualifiedName) (hoperands : e.operands = [base, index])
      (hfollowed : Followed e) (hcontained : Contained e)
  | pointee (qualifiedName : Option Text) (base : AstExpr)
      (hkind : e.kind = .reference .deref qualifiedName) (hoperands : e.operands = [base])
      (hfollowed : Followed e)
  | address (qualifiedName : Option Text) (base : AstExpr)
      (hkind : e.kind = .reference .address qualifiedName) (hoperands : e.operands = [base])
      (hfollowed : Followed e) (hplaceless : Placeless e)
  | unknown (hfollowed : Followed e) (hplaceless : Placeless e) (huses : ∀ r, (e.uses r).value = none)
  | operator (hfollowed : Followed e) (hplaceless : Placeless e) (hcontained : Contained e)

theorem followed_of {e : AstExpr}
    (hplace : ∀ (Cell : Type) (I : Interpretation Cell) (σ : Store Cell) (operands : List (Denoted Cell)),
      operands.length = e.operands.length → placeOf I σ e.kind operands =
        (heldPlace I e.kind operands).bind fun place =>
          if e.kind.follows I.references then I.pointee (place.read σ) else some place)
    (huses : ∀ r (operands : List Uses), operands.length = e.operands.length →
      placeUses r e.kind operands =
        if e.kind.follows r then contentUses e.kind operands else heldUses e.kind operands)
    (howner : ∀ r (operands : List Owners), operands.length = e.operands.length →
      placeOwner r e.kind operands =
        (heldOwner e.kind operands).map fun owner => if e.kind.follows r then .pointee else owner)
    (hunknown : ∀ r (operands : List Uses), operands.length = e.operands.length →
      e.kind.follows r = true → valueUses r e.kind operands = none) : Followed e where
  place Cell I σ := by
    rw [denote_place, denote_held]
    exact hplace Cell I σ _ (List.length_map _)
  uses r := by
    rw [uses_eq]
    exact huses r _ (List.length_map _)
  owner r := by
    rw [owners_eq]
    exact howner r _ (List.length_map _)
  unknown r hfollows := by
    rw [uses_eq]
    exact hunknown r _ (List.length_map _) hfollows

theorem contained_of {e : AstExpr}
    (hvalue : ∀ (Cell : Type) (I : Interpretation Cell) (σ : Store Cell) (operands : List (Denoted Cell)),
      operands.length = e.operands.length → valueOf I σ e operands =
        (placeOf I σ e.kind operands).elim (I.operator e.kind.expressionKind e.typeName
          ((evaluated Denoted.kind e.kind operands).map Denoted.value)) fun place => place.read σ)
    (huses : ∀ r (operands : List Uses), operands.length = e.operands.length →
      e.kind.follows r = false → valueUses r e.kind operands = contentUses e.kind operands) :
    Contained e where
  value Cell I σ := by
    rw [denote_value, denote_place, hvalue Cell I σ _ (List.length_map _), evaluated_map (denote_kind I σ),
      List.map_map]
    rfl
  uses r hfollows := by
    rw [uses_eq]
    exact huses r _ (List.length_map _) hfollows

theorem placeless_of {e : AstExpr}
    (hheld : ∀ (Cell : Type) (I : Interpretation Cell) (operands : List (Denoted Cell)),
      operands.length = e.operands.length → heldPlace I e.kind operands = none)
    (huses : ∀ operands : List Uses, operands.length = e.operands.length →
      heldUses e.kind operands = some [])
    (howner : ∀ operands : List Owners, operands.length = e.operands.length →
      heldOwner e.kind operands = none) : Placeless e where
  held Cell I σ := by
    rw [denote_held]
    exact hheld Cell I _ (List.length_map _)
  uses r := by
    rw [uses_eq]
    exact huses _ (List.length_map _)
  owner r := by
    rw [owners_eq]
    exact howner _ (List.length_map _)

section

variable {id : ℕ} {span : SourceSpan} {typeName : Text} {operands : List AstExpr}

/-- A member access is followed as one, unless it only wraps an identifier. -/
theorem followed_member {name qualifiedName : Option Text} (hne : operands.length ≠ 1) :
    Followed ⟨id, span, .reference (.member name) qualifiedName, typeName, operands⟩ ∧
      Contained ⟨id, span, .reference (.member name) qualifiedName, typeName, operands⟩ := by
  have hcases : ∀ {α : Type} {l : List α}, l.length = operands.length →
      l = [] ∨ ∃ a b rest, l = a :: b :: rest := by
    intro α l hlength
    rcases l with _ | ⟨a, _ | ⟨b, rest⟩⟩
    · exact .inl rfl
    · exact absurd hlength.symm hne
    · exact .inr ⟨a, b, rest, rfl⟩
  refine ⟨followed_of ?_ ?_ ?_ ?_, contained_of ?_ ?_⟩
  · intro Cell I σ l hlength
    rcases hcases hlength with rfl | ⟨a, b, rest, rfl⟩ <;> rfl
  · intro r l hlength
    rcases hcases hlength with rfl | ⟨a, b, rest, rfl⟩ <;> rfl
  · intro r l hlength
    rcases hcases hlength with rfl | ⟨a, b, rest, rfl⟩ <;> rfl
  · intro r l hlength hfollows
    rcases hcases hlength with rfl | ⟨a, b, rest, rfl⟩ <;> exact if_pos hfollows
  · intro Cell I σ l hlength
    rcases hcases hlength with rfl | ⟨a, b, rest, rfl⟩ <;> rfl
  · intro r l hlength hfollows
    have hnot : ¬AstKind.follows r (.reference (.member name) qualifiedName) = true := by
      rw [hfollows]
      exact Bool.false_ne_true
    rcases hcases hlength with rfl | ⟨a, b, rest, rfl⟩ <;> exact if_neg hnot

theorem followed_index {qualifiedName : Option Text} :
    Followed ⟨id, span, .reference .index qualifiedName, typeName, operands⟩ ∧
      Contained ⟨id, span, .reference .index qualifiedName, typeName, operands⟩ :=
  ⟨followed_of (fun _ _ _ _ _ => rfl) (fun _ _ _ => rfl) (fun _ _ _ => rfl) fun _ _ _ h => if_pos h,
    contained_of (fun _ _ _ _ _ => rfl) fun _ _ _ h => if_neg (by rw [h]; exact Bool.false_ne_true)⟩

/-- A reference access that holds something for some numbers of operands holds nothing for others. -/
theorem placeless_reference {access : ReferenceAccess} {qualifiedName : Option Text}
    (h : operands.length = 0 ∨ 3 ≤ operands.length ∨ (access = .index ∧ operands.length = 1) ∨
      (access = .deref ∧ operands.length = 2)) :
    Placeless ⟨id, span, .reference access qualifiedName, typeName, operands⟩ := by
  have hcases : ∀ {α : Type} {l : List α}, l.length = operands.length →
      l = [] ∨ (∃ a b c rest, l = a :: b :: c :: rest) ∨ (access = .index ∧ ∃ a, l = [a]) ∨
        (access = .deref ∧ ∃ a b, l = [a, b]) := by
    intro α l hlength
    rw [← hlength] at h
    rcases h with h | h | ⟨haccess, h⟩ | ⟨haccess, h⟩
    · exact .inl (List.length_eq_zero_iff.1 h)
    · obtain ⟨a, b, c, rest, rfl⟩ : ∃ a b c rest, l = a :: b :: c :: rest := by
        rcases l with _ | ⟨a, _ | ⟨b, _ | ⟨c, rest⟩⟩⟩
        · cases h
        · simp at h
        · simp at h
        · exact ⟨a, b, c, rest, rfl⟩
      exact .inr (.inl ⟨a, b, c, rest, rfl⟩)
    · exact .inr (.inr (.inl ⟨haccess, List.length_eq_one_iff.1 h⟩))
    · exact .inr (.inr (.inr ⟨haccess, List.length_eq_two.1 h⟩))
  refine placeless_of ?_ ?_ ?_
  · intro Cell I l hlength
    rcases hcases hlength with rfl | ⟨a, b, c, rest, rfl⟩ | ⟨rfl, a, rfl⟩ | ⟨rfl, a, b, rfl⟩
    · cases access <;> rfl
    · cases access <;> rfl
    · rfl
    · rfl
  · intro l hlength
    rcases hcases hlength with rfl | ⟨a, b, c, rest, rfl⟩ | ⟨rfl, a, rfl⟩ | ⟨rfl, a, b, rfl⟩
    · cases access <;> rfl
    · cases access <;> rfl
    · rfl
    · rfl
  · intro l hlength
    rcases hcases hlength with rfl | ⟨a, b, c, rest, rfl⟩ | ⟨rfl, a, rfl⟩ | ⟨rfl, a, b, rfl⟩
    · cases access <;> rfl
    · cases access <;> rfl
    · rfl
    · rfl

theorem placeForm_reference (access : ReferenceAccess) (qualifiedName : Option Text) :
    PlaceForm ⟨id, span, .reference access qualifiedName, typeName, operands⟩ := by
  have hcount : operands.length = 0 ∨ operands.length = 1 ∨ operands.length = 2 ∨ 3 ≤ operands.length := by
    omega
  cases access with
  | member name =>
    have hmember := @followed_member id span typeName operands name qualifiedName
    rcases hcount with h | h | h | h
    · obtain ⟨hfollowed, hcontained⟩ := hmember (by omega)
      exact .operator hfollowed (placeless_reference (.inl h)) hcontained
    · obtain ⟨inner, rfl⟩ := List.length_eq_one_iff.1 h
      exact .wrapper name qualifiedName inner rfl rfl
    · obtain ⟨hfollowed, hcontained⟩ := hmember (by omega)
      obtain ⟨base, inner, rfl⟩ := List.length_eq_two.1 h
      exact .member name qualifiedName base inner rfl rfl hfollowed hcontained
    · obtain ⟨hfollowed, hcontained⟩ := hmember (by omega)
      exact .operator hfollowed (placeless_reference (.inr (.inl h))) hcontained
  | index =>
    obtain ⟨hfollowed, hcontained⟩ := followed_index
    rcases hcount with h | h | h | h
    · exact .operator hfollowed (placeless_reference (.inl h)) hcontained
    · exact .operator hfollowed (placeless_reference (.inr (.inr (.inl ⟨rfl, h⟩)))) hcontained
    · obtain ⟨base, index, rfl⟩ := List.length_eq_two.1 h
      exact .element qualifiedName base index rfl rfl hfollowed hcontained
    · exact .operator hfollowed (placeless_reference (.inr (.inl h))) hcontained
  | deref =>
    have hfollowed : Followed ⟨id, span, .reference .deref qualifiedName, typeName, operands⟩ :=
      followed_of (fun _ _ _ _ _ => by simp [placeOf, AstKind.follows]) (fun _ _ _ => rfl)
        (fun _ _ _ => by simp [placeOwner, AstKind.follows]) fun _ _ _ _ => rfl
    rcases hcount with h | h | h | h
    · exact .unknown hfollowed (placeless_reference (.inl h)) fun _ => rfl
    · obtain ⟨base, rfl⟩ := List.length_eq_one_iff.1 h
      exact .pointee qualifiedName base rfl rfl hfollowed
    · exact .unknown hfollowed (placeless_reference (.inr (.inr (.inr ⟨rfl, h⟩)))) fun _ => rfl
    · exact .unknown hfollowed (placeless_reference (.inr (.inl h))) fun _ => rfl
  | address =>
    have hfollowed : Followed ⟨id, span, .reference .address qualifiedName, typeName, operands⟩ :=
      followed_of (fun _ _ _ _ _ => rfl) (fun _ _ _ => rfl) (fun _ _ _ => rfl) fun _ _ _ h => by cases h
    have hplaceless : Placeless ⟨id, span, .reference .address qualifiedName, typeName, operands⟩ :=
      placeless_of (fun _ _ _ _ => rfl) (fun _ _ => rfl) fun _ _ => rfl
    by_cases h : operands.length = 1
    · obtain ⟨base, rfl⟩ := List.length_eq_one_iff.1 h
      exact .address qualifiedName base rfl rfl hfollowed hplaceless
    · refine .operator hfollowed hplaceless (contained_of ?_ ?_)
      · intro Cell I σ l hlength
        rcases l with _ | ⟨a, _ | ⟨b, rest⟩⟩
        · rfl
        · exact absurd hlength.symm h
        · rfl
      · intro r l hlength _
        rcases l with _ | ⟨a, _ | ⟨b, rest⟩⟩
        · rfl
        · exact absurd hlength.symm h
        · rfl
  | cast targetType =>
    exact .operator
      (followed_of (fun _ _ _ _ _ => rfl) (fun _ _ _ => rfl) (fun _ _ _ => rfl) fun _ _ _ h => by cases h)
      (placeless_of (fun _ _ _ _ => rfl) (fun _ _ => rfl) fun _ _ => rfl)
      (contained_of (fun _ _ _ _ _ => rfl) fun _ _ _ _ => rfl)

end

theorem placeForm (e : AstExpr) : PlaceForm e := by
  rcases e with ⟨id, span, kind, typeName, operands⟩
  cases kind with
  | identifier name =>
    exact .identifier name rfl
      (followed_of (fun _ _ _ _ _ => rfl) (fun _ _ _ => rfl) (fun _ _ _ => rfl) fun _ _ _ h => if_pos h)
      (contained_of (fun _ _ _ _ _ => rfl) fun _ _ _ h => if_neg (by rw [h]; exact Bool.false_ne_true))
  | call callee effectReads =>
    exact .unknown
      (followed_of (fun _ _ _ _ _ => rfl) (fun _ _ _ => rfl) (fun _ _ _ => rfl) fun _ _ _ _ => rfl)
      (placeless_of (fun _ _ _ _ => rfl) (fun _ _ => rfl) fun _ _ => rfl) fun _ => rfl
  | reference access qualifiedName => exact placeForm_reference access qualifiedName
  | _ =>
    exact .operator
      (followed_of (fun _ _ _ _ _ => rfl) (fun _ _ _ => rfl) (fun _ _ _ => rfl) fun _ _ _ h => by cases h)
      (placeless_of (fun _ _ _ _ => rfl) (fun _ _ => rfl) fun _ _ => rfl)
      (contained_of (fun _ _ _ _ _ => rfl) fun _ _ _ _ => rfl)

end SemantiST.Stg
