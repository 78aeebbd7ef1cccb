import SemantiST.Stg.Denotations

/-!
# What decides denotations

The variables that an expression looks up decide its place and its value, and are among those it reads;
and its place is a part of the variable that owns it.
-/

namespace SemantiST.Stg

open Lib Semantic

/-! ## What decides a denotation -/

section

variable {Cell : Type} (I : Interpretation Cell)

theorem read_decided {names : Option (List Text)} {place : Store Cell → Option Place}
    (hplace : DecidedBy Prod.fst names place)
    (hnamed : ∀ deciding ∈ names, ∀ σ p, place σ = some p → p.name ∈ deciding) :
    DecidedBy Prod.fst names fun σ => (place σ).map fun p => p.read σ := by
  intro deciding hdeciding σ τ hagree
  show (place σ).map (fun p => p.read σ) = (place τ).map fun p => p.read τ
  rw [hplace deciding hdeciding σ τ hagree]
  cases hsome : place τ with
  | none => rfl
  | some p =>
    have hread : p.read σ = p.read τ := by
      funext path
      exact hagree _ (hnamed deciding hdeciding τ p hsome)
    rw [Option.map_some, Option.map_some, hread]

/-- What is looked up for an expression decides it, and a value is at a place of one of these variables. -/
structure Known (e : AstExpr) : Prop where
  held : DecidedBy Prod.fst (e.uses I.references).held fun σ : Store Cell => (denote I σ e).held
  place : DecidedBy Prod.fst (e.uses I.references).place fun σ : Store Cell => (denote I σ e).place
  value : DecidedBy Prod.fst (e.uses I.references).value fun σ : Store Cell => (denote I σ e).value
  subset : ∀ names ∈ (e.uses I.references).value, ∃ names' ∈ (e.uses I.references).place, names' ⊆ names
  named : ∀ names ∈ (e.uses I.references).value, ∀ (σ : Store Cell) (p : Place),
    (denote I σ e).place = some p → p.name ∈ names

/-- What is looked up for the content of the place where something is held decides the place. -/
structure KnownContent (e : AstExpr) : Prop where
  subset : ∀ names ∈ e.content I.references, ∃ names' ∈ (e.uses I.references).held, names' ⊆ names
  named : ∀ names ∈ e.content I.references, ∀ (σ : Store Cell) (p : Place),
    (denote I σ e).held = some p → p.name ∈ names

variable {I} {e : AstExpr}

theorem known_of_followed (hoperands : ∀ o ∈ e.operands, Known I o) (hfollowed : Followed e)
    (hcontained : Contained e)
    (hheld : DecidedBy Prod.fst (e.uses I.references).held fun σ : Store Cell => (denote I σ e).held)
    (hcontent : KnownContent I e) : Known I e := by
  have hcomputed := computed_decided I.references fun o ho => (hoperands o ho).value
  have hread := read_decided (hheld.mono hcontent.subset) hcontent.named
  cases hfollows : e.kind.follows I.references with
  | true =>
    have hplace : ∀ σ : Store Cell, (denote I σ e).place =
        ((denote I σ e).held.map fun p => p.read σ).bind I.pointee := by
      intro σ
      rw [hfollowed.place, Option.bind_map]
      exact congrArg _ (funext fun p => if_pos hfollows)
    have huses := hfollowed.unknown I.references hfollows
    refine ⟨hheld, ?_, ?_, ?_, ?_⟩
    · rw [hfollowed.uses, if_pos hfollows]
      exact funext hplace ▸ hread.map (Option.bind · I.pointee)
    · rw [huses]
      exact fun _ h => by cases h
    · rw [huses]
      exact fun _ h => by cases h
    · rw [huses]
      exact fun _ h => by cases h
  | false =>
    have hplace : ∀ σ : Store Cell, (denote I σ e).place = (denote I σ e).held := by
      intro σ
      rw [hfollowed.place, hfollows]
      cases (denote I σ e).held <;> rfl
    have huses : (e.uses I.references).place = (e.uses I.references).held := by
      rw [hfollowed.uses, hfollows]
      rfl
    have hvalue : ∀ σ : Store Cell, (denote I σ e).value =
        ((denote I σ e).held.map fun p => p.read σ).getD (computed I σ e) := by
      intro σ
      rw [hcontained.value, hplace]
      cases (denote I σ e).held <;> rfl
    refine ⟨hheld, ?_, ?_, ?_, ?_⟩
    · rw [huses]
      exact funext hplace ▸ hheld
    · rw [hcontained.uses I.references hfollows, funext hvalue]
      intro names hnames σ τ hagree
      exact congrArg₂ Option.getD (hread names hnames σ τ hagree) (hcomputed names hnames σ τ hagree)
    · rw [hcontained.uses I.references hfollows, huses]
      exact hcontent.subset
    · rw [hcontained.uses I.references hfollows]
      intro names hnames σ p hp
      exact hcontent.named names hnames σ p ((hplace σ).symm.trans hp)

theorem known_of_placeless (hfollowed : Followed e) (hplaceless : Placeless e)
    (hvalue : DecidedBy Prod.fst (e.uses I.references).value fun σ : Store Cell => (denote I σ e).value) :
    Known I e := by
  have hplace : ∀ σ : Store Cell, (denote I σ e).place = none := by
    intro σ
    rw [hfollowed.place, hplaceless.held]
    rfl
  have hheld : ∀ σ : Store Cell, (denote I σ e).held = none := hplaceless.held Cell I
  refine ⟨?_, ?_, hvalue, ?_, ?_⟩
  · rw [funext hheld]
    exact DecidedBy.const none
  · rw [funext hplace]
    exact DecidedBy.const none
  · intro names hnames
    refine ⟨[], ?_, by simp⟩
    cases hfollows : e.kind.follows I.references with
    | true =>
      rw [hfollowed.unknown I.references hfollows] at hnames
      cases hnames
    | false =>
      rw [hfollowed.uses, hfollows, hplaceless.uses]
      rfl
  · intro names _ σ p hp
    rw [hplace] at hp
    cases hp

theorem memberStep_decided {name : Option Text} {inner : AstExpr} (h : Known I inner) :
    DecidedBy Prod.fst
      (if inner.kind.isDirectAccess then (inner.uses I.references).value else some [])
      fun σ : Store Cell => memberStep I name (denote I σ inner) := by
  intro names hnames σ τ hagree
  show memberStep I name (denote I σ inner) = memberStep I name (denote I τ inner)
  unfold memberStep
  rw [denote_kind, denote_kind]
  split
  · rename_i width hkind
    rw [hkind] at hnames
    have hvalue : (denote I σ inner).value = (denote I τ inner).value := h.value names hnames σ τ hagree
    rw [hvalue]
  · rfl

theorem held_eq (I : Interpretation Cell) (e : AstExpr) :
    (fun σ : Store Cell => (denote I σ e).held) = fun σ => heldPlace I e.kind (e.operands.map (denote I σ)) :=
  funext fun σ => denote_held I σ e

theorem heldUses_eq (r : References) (e : AstExpr) :
    (e.uses r).held = heldUses e.kind (e.operands.map (AstExpr.uses r)) := by rw [uses_eq]

theorem known_identifier {name : Text} (hkind : e.kind = .identifier name)
    (hoperands : ∀ o ∈ e.operands, Known I o) (hfollowed : Followed e) (hcontained : Contained e) :
    Known I e := by
  refine known_of_followed hoperands hfollowed hcontained ?_ ⟨?_, ?_⟩
  · rw [held_eq, hkind]
    exact DecidedBy.const _
  · intro names _
    rw [heldUses_eq, hkind]
    exact ⟨[], rfl, by simp⟩
  · intro names hnames σ p hp
    rw [denote_held, hkind, heldPlace] at hp
    split at hp
    · cases hp
    · rename_i hne
      cases hp
      have hown := (exists_of_content I.references hnames).1
      rw [hkind, ownUses, if_neg hne] at hown
      exact hown (List.mem_singleton_self _)

/-- A wrapper stands for what it wraps. -/
theorem known_wrapper {name q : Option Text} {inner : AstExpr} (hkind : e.kind = .reference (.member name) q)
    (hoperands : e.operands = [inner]) (hinner : Known I inner) : Known I e := by
  have huses : (e.uses I.references).place = (inner.uses I.references).place ∧
      (e.uses I.references).value = (inner.uses I.references).value := by
    rw [uses_eq, hkind, hoperands]
    exact ⟨rfl, rfl⟩
  have hplace : ∀ σ : Store Cell, (denote I σ e).place = (denote I σ inner).place := by
    intro σ
    rw [denote_place, hkind, hoperands]
    rfl
  have hvalue : ∀ σ : Store Cell, (denote I σ e).value =
      ((denote I σ inner).place.map fun p => p.read σ).getD
        (I.operator e.kind.expressionKind e.typeName [(denote I σ inner).value]) := by
    intro σ
    rw [denote_value]
    unfold valueOf
    rw [hkind, hoperands]
    show (denote I σ inner).place.elim _ _ = _
    cases (denote I σ inner).place <;> rfl
  refine ⟨?_, ?_, ?_, ?_, ?_⟩
  · rw [heldUses_eq, held_eq, hkind, hoperands]
    exact hinner.held
  · rw [huses.1, funext hplace]
    exact hinner.place
  · rw [huses.2, funext hvalue]
    have hread := read_decided (hinner.place.mono hinner.subset) hinner.named
    intro names hnames σ τ hagree
    exact congrArg₂ Option.getD (hread names hnames σ τ hagree)
      (congrArg (fun value => I.operator e.kind.expressionKind e.typeName [value])
        (hinner.value names hnames σ τ hagree))
  · rw [huses.1, huses.2]
    exact hinner.subset
  · rw [huses.2]
    intro names hnames σ p hp
    exact hinner.named names hnames σ p ((hplace σ).symm.trans hp)

/-- The parts of a place are decided with the place and what tells the part. -/
theorem known_part {base : AstExpr} {step : Store Cell → AccessStep} {stepUses : Option (List Text)}
    (hoperands : ∀ o ∈ e.operands, Known I o) (hfollowed : Followed e) (hcontained : Contained e)
    (hbase : base ∈ evaluated AstExpr.kind e.kind e.operands)
    (hheld : ∀ σ : Store Cell, (denote I σ e).held = (denote I σ base).place.map fun place => place.part (step σ))
    (huses : (e.uses I.references).held = both (base.uses I.references).place stepUses)
    (hstep : DecidedBy Prod.fst stepUses step)
    (hstepUses : ∀ names ∈ e.content I.references, ∃ names' ∈ stepUses, names' ⊆ names) : Known I e := by
  have hknown := hoperands base (evaluated_subset _ _ _ hbase)
  refine known_of_followed hoperands hfollowed hcontained ?_ ⟨?_, ?_⟩
  · rw [huses, funext hheld]
    exact hknown.place.map₂ hstep fun place step => place.map fun place => place.part step
  · intro names hnames
    obtain ⟨value, hvalue, hsubset⟩ := (exists_of_content I.references hnames).2 base hbase
    obtain ⟨before, hbefore, hsubset'⟩ := hknown.subset value hvalue
    obtain ⟨after, hafter, hsubset''⟩ := hstepUses names hnames
    rw [huses]
    exact ⟨before ++ after, mem_both hbefore hafter,
      List.append_subset.2 ⟨List.Subset.trans hsubset' hsubset, hsubset''⟩⟩
  · intro names hnames σ p hp
    obtain ⟨value, hvalue, hsubset⟩ := (exists_of_content I.references hnames).2 base hbase
    rw [hheld] at hp
    obtain ⟨place, hplace, rfl⟩ := Option.map_eq_some_iff.1 hp
    exact hsubset (hknown.named value hvalue σ place hplace)

theorem known_member {name q : Option Text} {base inner : AstExpr}
    (hkind : e.kind = .reference (.member name) q) (hoperands : e.operands = [base, inner])
    (hknown : ∀ o ∈ e.operands, Known I o) (hfollowed : Followed e) (hcontained : Contained e) :
    Known I e := by
  have hevaluated : evaluated AstExpr.kind e.kind e.operands =
      base :: if inner.kind.isDirectAccess then [inner] else [] := by
    rw [hkind, hoperands]
    rfl
  have hstep := @memberStep_decided Cell I name inner (hknown inner (by simp [hoperands]))
  refine known_part hknown hfollowed hcontained (by rw [hevaluated]; exact List.mem_cons_self) ?_ ?_ hstep ?_
  · intro σ
    rw [denote_held, hkind, hoperands]
    rfl
  · rw [heldUses_eq, hkind, hoperands, List.map_cons, List.map_cons, List.map_nil, heldUses, uses_kind]
  · intro names hnames
    by_cases haccess : inner.kind.isDirectAccess = true
    · rw [if_pos haccess]
      exact (exists_of_content I.references hnames).2 inner (by rw [hevaluated, if_pos haccess]; simp)
    · rw [if_neg haccess]
      exact ⟨[], rfl, by simp⟩

theorem known_element {q : Option Text} {base index : AstExpr} (hkind : e.kind = .reference .index q)
    (hoperands : e.operands = [base, index]) (hknown : ∀ o ∈ e.operands, Known I o)
    (hfollowed : Followed e) (hcontained : Contained e) : Known I e := by
  have hevaluated : evaluated AstExpr.kind e.kind e.operands = [base, index] := by
    rw [hkind, hoperands]
    rfl
  have hstep := (hknown index (by simp [hoperands])).value.map fun value => AccessStep.element (I.indices value)
  refine known_part hknown hfollowed hcontained (by rw [hevaluated]; exact List.mem_cons_self) ?_ ?_ hstep ?_
  · intro σ
    rw [denote_held, hkind, hoperands]
    rfl
  · rw [heldUses_eq, hkind, hoperands]
    rfl
  · intro names hnames
    exact (exists_of_content I.references hnames).2 index (by simp [hevaluated])

theorem known_pointee {q : Option Text} {base : AstExpr} (hkind : e.kind = .reference .deref q)
    (hoperands : e.operands = [base]) (hbase : Known I base) (hfollowed : Followed e) : Known I e := by
  have hnone : (e.uses I.references).value = none := by
    rw [uses_eq, hkind]
    rfl
  have hplace : ∀ σ : Store Cell, (denote I σ e).place = (denote I σ e).held := by
    intro σ
    rw [hfollowed.place, hkind]
    cases (denote I σ e).held <;> rfl
  have huses : (e.uses I.references).place = (e.uses I.references).held := by
    rw [hfollowed.uses, hkind]
    rfl
  have hheld : DecidedBy Prod.fst (e.uses I.references).held fun σ : Store Cell => (denote I σ e).held := by
    rw [heldUses_eq, held_eq, hkind, hoperands]
    exact hbase.value.map I.pointee
  refine ⟨hheld, ?_, ?_, ?_, ?_⟩
  · rw [huses, funext hplace]
    exact hheld
  · rw [hnone]
    exact fun _ h => by cases h
  · rw [hnone]
    exact fun _ h => by cases h
  · rw [hnone]
    exact fun _ h => by cases h

/-- An address takes a place and not what is there. -/
theorem known_address {q : Option Text} {base : AstExpr} (hkind : e.kind = .reference .address q)
    (hoperands : e.operands = [base]) (hbase : Known I base) (hfollowed : Followed e)
    (hplaceless : Placeless e) : Known I e := by
  have hvalue : ∀ σ : Store Cell, (denote I σ e).value = I.address (denote I σ base).place := by
    intro σ
    rw [denote_value]
    unfold valueOf
    rw [hkind, hoperands]
    rfl
  have huses : (e.uses I.references).value = (base.uses I.references).place := by
    rw [uses_eq, hkind, hoperands]
    rfl
  refine known_of_placeless hfollowed hplaceless ?_
  rw [huses, funext hvalue]
  exact hbase.place.map I.address

theorem known_operator (hoperands : ∀ o ∈ e.operands, Known I o) (hfollowed : Followed e)
    (hplaceless : Placeless e) (hcontained : Contained e) : Known I e := by
  refine known_of_placeless hfollowed hplaceless ?_
  cases hfollows : e.kind.follows I.references with
  | true =>
    rw [hfollowed.unknown I.references hfollows]
    exact fun _ h => by cases h
  | false =>
    have hvalue : ∀ σ : Store Cell, (denote I σ e).value = computed I σ e := by
      intro σ
      rw [hcontained.value, hfollowed.place, hplaceless.held]
      rfl
    rw [hcontained.uses I.references hfollows, funext hvalue]
    exact computed_decided I.references fun o ho => (hoperands o ho).value

/-- **Every expression is decided by what is looked up for it.** -/
theorem known (I : Interpretation Cell) (e : AstExpr) : Known I e := by
  induction e using AstExpr.inductOn with
  | hstep e ih =>
    rcases placeForm e with ⟨name, hkind, hfollowed, hcontained⟩ | ⟨name, q, inner, hkind, hoperands⟩ |
      ⟨name, q, base, inner, hkind, hoperands, hfollowed, hcontained⟩ |
      ⟨q, base, index, hkind, hoperands, hfollowed, hcontained⟩ | ⟨q, base, hkind, hoperands, hfollowed⟩ |
      ⟨q, base, hkind, hoperands, hfollowed, hplaceless⟩ | ⟨hfollowed, hplaceless, hnone⟩ |
      ⟨hfollowed, hplaceless, hcontained⟩
    · exact known_identifier hkind ih hfollowed hcontained
    · exact known_wrapper hkind hoperands (ih inner (by simp [hoperands]))
    · exact known_member hkind hoperands ih hfollowed hcontained
    · exact known_element hkind hoperands ih hfollowed hcontained
    · exact known_pointee hkind hoperands (ih base (by simp [hoperands])) hfollowed
    · exact known_address hkind hoperands (ih base (by simp [hoperands])) hfollowed hplaceless
    · refine known_of_placeless hfollowed hplaceless ?_
      rw [hnone]
      exact fun _ h => by cases h
    · exact known_operator ih hfollowed hplaceless hcontained

end

/-! ## What is looked up is read -/

theorem readsOfAll_eq_flatMap (es : List AstExpr) : readsOfAll es = es.flatMap AstExpr.reads := by
  induction es with
  | nil => rfl
  | cons e es ih => rw [readsOfAll, ih, List.flatMap_cons]

theorem reads_eq (e : AstExpr) : e.reads = e.kind.ownReads ++ e.operands.flatMap AstExpr.reads := by
  rcases e with ⟨id, span, kind, typeName, operands⟩
  rw [AstExpr.reads, readsOfAll_eq_flatMap]

theorem reads_operand {e o : AstExpr} (ho : o ∈ e.operands) : o.reads ⊆ e.reads := by
  intro x hx
  rw [reads_eq]
  exact List.mem_append_right _ (List.mem_flatMap.2 ⟨o, ho, hx⟩)

section

variable (r : References)

/-- Names are read where they decide something. -/
structure Read (e : AstExpr) : Prop where
  held : ∀ names ∈ (e.uses r).held, names ⊆ e.reads
  place : ∀ names ∈ (e.uses r).place, names ⊆ e.reads
  value : ∀ names ∈ (e.uses r).value, names ⊆ e.reads

variable {r} {e : AstExpr}

theorem eachUses_subset {es : List AstExpr} {read : List Text} (h : ∀ o ∈ es, Read r o ∧ o.reads ⊆ read)
    {names : List Text} (hnames : names ∈ eachUses (es.map (AstExpr.uses r))) : names ⊆ read := by
  induction es generalizing names with
  | nil =>
    cases hnames
    exact List.nil_subset _
  | cons o es ih =>
    obtain ⟨ho, hes⟩ := List.forall_mem_cons.1 h
    obtain ⟨before, hbefore, after, hafter, rfl⟩ := exists_of_both hnames
    exact List.append_subset.2 ⟨List.Subset.trans (ho.1.value before hbefore) ho.2, ih hes hafter⟩

theorem content_subset (hoperands : ∀ o ∈ e.operands, Read r o) : ∀ names ∈ e.content r, names ⊆ e.reads := by
  intro names hnames
  rw [content_eq] at hnames
  obtain ⟨before, hbefore, after, hafter, rfl⟩ := exists_of_both hnames
  cases hbefore
  refine List.append_subset.2 ⟨?_, eachUses_subset (fun o ho => ?_) hafter⟩
  · intro x hx
    unfold ownUses at hx
    rw [reads_eq]
    apply List.mem_append_left
    split at hx
    · rename_i name hkind
      rw [hkind, AstKind.ownReads]
      exact hx
    · cases hx
  · have ho' := evaluated_subset AstExpr.kind e.kind e.operands ho
    exact ⟨hoperands o ho', reads_operand ho'⟩

theorem read_of_followed (hoperands : ∀ o ∈ e.operands, Read r o) (hfollowed : Followed e)
    (hheld : ∀ names ∈ (e.uses r).held, names ⊆ e.reads)
    (hvalue : ∀ names ∈ (e.uses r).value, names ⊆ e.reads) : Read r e := by
  refine ⟨hheld, ?_, hvalue⟩
  rw [hfollowed.uses]
  split
  · exact content_subset hoperands
  · exact hheld

theorem value_subset (hoperands : ∀ o ∈ e.operands, Read r o) (hfollowed : Followed e)
    (hcontained : Contained e) : ∀ names ∈ (e.uses r).value, names ⊆ e.reads := by
  cases hfollows : e.kind.follows r with
  | true =>
    rw [hfollowed.unknown r hfollows]
    exact fun _ h => by cases h
  | false =>
    rw [hcontained.uses r hfollows]
    exact content_subset hoperands

theorem both_subset {names names' : Option (List Text)} {read : List Text}
    (h : ∀ before ∈ names, before ⊆ read) (h' : ∀ after ∈ names', after ⊆ read) :
    ∀ deciding ∈ both names names', deciding ⊆ read := by
  intro deciding hdeciding
  obtain ⟨before, hbefore, after, hafter, rfl⟩ := exists_of_both hdeciding
  exact List.append_subset.2 ⟨h before hbefore, h' after hafter⟩

theorem nothing_subset {read : List Text} : ∀ names ∈ some ([] : List Text), names ⊆ read := by
  rintro names ⟨⟩
  exact List.nil_subset _

/-- **What is looked up for an expression is read by it.** -/
theorem read (r : References) (e : AstExpr) : Read r e := by
  induction e using AstExpr.inductOn with
  | hstep e ih =>
    have hplace : ∀ o ∈ e.operands, ∀ names ∈ (o.uses r).place, names ⊆ e.reads := fun o ho names hnames =>
      List.Subset.trans ((ih o ho).place names hnames) (reads_operand ho)
    have hvalue : ∀ o ∈ e.operands, ∀ names ∈ (o.uses r).value, names ⊆ e.reads := fun o ho names hnames =>
      List.Subset.trans ((ih o ho).value names hnames) (reads_operand ho)
    rcases placeForm e with ⟨name, hkind, hfollowed, hcontained⟩ | ⟨name, q, inner, hkind, hoperands⟩ |
      ⟨name, q, base, inner, hkind, hoperands, hfollowed, hcontained⟩ |
      ⟨q, base, index, hkind, hoperands, hfollowed, hcontained⟩ | ⟨q, base, hkind, hoperands, hfollowed⟩ |
      ⟨q, base, hkind, hoperands, hfollowed, hplaceless⟩ | ⟨hfollowed, hplaceless, hnone⟩ |
      ⟨hfollowed, hplaceless, hcontained⟩
    · refine read_of_followed ih hfollowed ?_ (value_subset ih hfollowed hcontained)
      rw [heldUses_eq, hkind]
      exact nothing_subset
    · have hinner : inner ∈ e.operands := by simp [hoperands]
      refine ⟨?_, ?_, ?_⟩
      · rw [heldUses_eq, hkind, hoperands]
        exact fun names hnames => List.Subset.trans ((ih inner hinner).held names hnames) (reads_operand hinner)
      · rw [uses_eq, hkind, hoperands]
        exact hplace inner hinner
      · rw [uses_eq, hkind, hoperands]
        exact hvalue inner hinner
    · refine read_of_followed ih hfollowed ?_ (value_subset ih hfollowed hcontained)
      rw [heldUses_eq, hkind, hoperands]
      refine both_subset (hplace base (by simp [hoperands])) ?_
      split
      · exact hvalue inner (by simp [hoperands])
      · exact nothing_subset
    · refine read_of_followed ih hfollowed ?_ (value_subset ih hfollowed hcontained)
      rw [heldUses_eq, hkind, hoperands]
      exact both_subset (hplace base (by simp [hoperands])) (hvalue index (by simp [hoperands]))
    · refine read_of_followed ih hfollowed ?_ ?_
      · rw [heldUses_eq, hkind, hoperands]
        exact hvalue base (by simp [hoperands])
      · rw [uses_eq, hkind]
        exact fun _ h => by cases h
    · refine read_of_followed ih hfollowed ?_ ?_
      · rw [hplaceless.uses]
        exact nothing_subset
      · rw [uses_eq, hkind, hoperands]
        exact hplace base (by simp [hoperands])
    · refine read_of_followed ih hfollowed ?_ ?_
      · rw [hplaceless.uses]
        exact nothing_subset
      · rw [hnone]
        exact fun _ h => by cases h
    · refine read_of_followed ih hfollowed ?_ (value_subset ih hfollowed hcontained)
      rw [hplaceless.uses]
      exact nothing_subset

end

/-! ## Whose place it is -/

section

variable {Cell : Type} {I : Interpretation Cell} {σ : Store Cell}

/-- A place has an owner: the variable it is a part of, unless something was followed to it. -/
def OwnedBy (place : Option Place) (owner : Option Owner) : Prop :=
  ∀ p ∈ place, owner = some .pointee ∨ owner = some (.named p.name)

theorem ownedBy_of_followed {e : AstExpr} (hfollowed : Followed e)
    (h : OwnedBy (denote I σ e).held (e.owners I.references).held) :
    OwnedBy (denote I σ e).place (e.owners I.references).place := by
  intro p hp
  rw [hfollowed.place] at hp
  obtain ⟨held, hheld, hp⟩ := Option.bind_eq_some_iff.1 hp
  rw [hfollowed.owner]
  split at hp
  · left
    rcases h held hheld with howner | howner
    · rw [howner, Option.map_some, ite_self]
    · rename_i hfollows
      rw [howner, Option.map_some, if_pos hfollows]
  · rename_i hfollows
    cases hp
    rcases h p hheld with howner | howner
    · left
      rw [howner, Option.map_some, ite_self]
    · right
      rw [howner, Option.map_some, if_neg hfollows]

theorem ownedBy_part {place : Option Place} {step : AccessStep} {owner : Option Owner} (h : OwnedBy place owner) :
    OwnedBy (place.map fun place => place.part step) owner := by
  intro p hp
  obtain ⟨place, hplace, rfl⟩ := Option.map_eq_some_iff.1 hp
  exact h place hplace

/-- **Every place has its owner.** -/
theorem ownedBy (I : Interpretation Cell) (σ : Store Cell) (e : AstExpr) :
    OwnedBy (denote I σ e).held (e.owners I.references).held ∧
      OwnedBy (denote I σ e).place (e.owners I.references).place := by
  induction e using AstExpr.inductOn with
  | hstep e ih =>
    have hheld : (e.owners I.references).held =
        heldOwner e.kind (e.operands.map (AstExpr.owners I.references)) := by rw [owners_eq]
    rcases placeForm e with ⟨name, hkind, hfollowed, -⟩ | ⟨name, q, inner, hkind, hoperands⟩ |
      ⟨name, q, base, inner, hkind, hoperands, hfollowed, -⟩ | ⟨q, base, index, hkind, hoperands, hfollowed, -⟩ |
      ⟨q, base, hkind, hoperands, hfollowed⟩ | ⟨q, base, hkind, hoperands, hfollowed, hplaceless⟩ |
      ⟨hfollowed, hplaceless, -⟩ | ⟨hfollowed, hplaceless, -⟩
    · have howned : OwnedBy (denote I σ e).held (e.owners I.references).held := by
        intro p hp
        rw [denote_held, hkind, heldPlace] at hp
        rw [hheld, hkind, heldOwner]
        split at hp
        · cases hp
        · rename_i hne
          cases hp
          rw [if_neg hne]
          exact .inr rfl
      exact ⟨howned, ownedBy_of_followed hfollowed howned⟩
    · obtain ⟨hinner, hinner'⟩ := ih inner (by simp [hoperands])
      rw [denote_held, denote_place, owners_eq, hkind, hoperands]
      exact ⟨hinner, hinner'⟩
    · have howned : OwnedBy (denote I σ e).held (e.owners I.references).held := by
        rw [denote_held, hheld, hkind, hoperands]
        exact ownedBy_part (ih base (by simp [hoperands])).2
      exact ⟨howned, ownedBy_of_followed hfollowed howned⟩
    · have howned : OwnedBy (denote I σ e).held (e.owners I.references).held := by
        rw [denote_held, hheld, hkind, hoperands]
        exact ownedBy_part (ih base (by simp [hoperands])).2
      exact ⟨howned, ownedBy_of_followed hfollowed howned⟩
    · have howned : OwnedBy (denote I σ e).held (e.owners I.references).held := by
        rw [hheld, hkind, hoperands]
        exact fun _ _ => .inl rfl
      exact ⟨howned, ownedBy_of_followed hfollowed howned⟩
    all_goals
      have howned : OwnedBy (denote I σ e).held (e.owners I.references).held := by
        rw [hplaceless.held]
        exact fun _ h => by cases h
      exact ⟨howned, ownedBy_of_followed hfollowed howned⟩

end

end SemantiST.Stg
