import Mathlib.Data.Fintype.EquivFin
import SemantiST.Stg.Decisions
import SemantiST.Stg.Operations
import SemantiST.Stg.Unique

/-!
# Soundness of exact summaries

An exact summary lists the variables that the operations change, and the variables that decide what they
are changed to, where no pointer and no reference is followed to a value, where the variable of each
target is recorded, and where what is looked up in the targets is known.
-/

namespace SemantiST.Stg

open Lib Semantic

/-! ## Parts of operations -/

def TransferOperation.target : TransferOperation → Option AstExpr
  | .assign target _ _ _ => some target
  | _ => none

def TransferOperation.valueReads : TransferOperation → List Text
  | .assign _ _ value _ => value.reads
  | _ => []

/-- Neither a call nor a statement that is only preserved. -/
def TransferOperation.isPlain : TransferOperation → Bool
  | .call _ | .opaqueStep _ => false
  | _ => true

def wholeOf (byReference : Text → Bool) (kind : AstKind) (operands : List (Option Text)) : Option Text :=
  match kind, operands with
  | .identifier name, _ => if name = unresolved ∨ byReference name = true then none else some name
  | .reference (.member _) _, [inner] => inner
  | _, _ => none

mutual

/-- The variable that an expression stands for as a whole, unless it is a reference. -/
def AstExpr.whole (byReference : Text → Bool) : AstExpr → Option Text
  | ⟨_, _, kind, _, operands⟩ => wholeOf byReference kind (wholes byReference operands)

def wholes (byReference : Text → Bool) : List AstExpr → List (Option Text)
  | [] => []
  | e :: es => e.whole byReference :: wholes byReference es

end

theorem wholes_eq_map (byReference : Text → Bool) (es : List AstExpr) :
    wholes byReference es = es.map (AstExpr.whole byReference) := by
  induction es with
  | nil => rfl
  | cons e es ih => rw [wholes, ih, List.map_cons]

theorem whole_eq (byReference : Text → Bool) (e : AstExpr) :
    e.whole byReference = wholeOf byReference e.kind (e.operands.map (AstExpr.whole byReference)) := by
  rcases e with ⟨id, span, kind, typeName, operands⟩
  rw [AstExpr.whole, wholes_eq_map]

mutual

/-- The variables that decide the value of an expression, where variables do. -/
def TypedExpression.valueUses (r : References) : TypedExpression → Option (List Text)
  | .source e => (e.uses r).value
  | .synthetic _ _ _ operands => valueUsesOfAll r operands

def valueUsesOfAll (r : References) : List TypedExpression → Option (List Text)
  | [] => some []
  | e :: es => both (e.valueUses r) (valueUsesOfAll r es)

end

def TypedExpression.placeUses (r : References) : TypedExpression → Option (List Text)
  | .source e => (e.uses r).place
  | .synthetic _ _ _ _ => some []

namespace TransferOperation

/-- What is looked up for where an operation stores. -/
def destinationUses (r : References) : TransferOperation → Option (List Text)
  | .assign target _ _ _ => if r.binds target then (target.uses r).held else (target.uses r).place
  | _ => some []

/-- What is looked up for what it stores; for a reference, for the place it is to refer to. -/
def storedUses (r : References) : TransferOperation → Option (List Text)
  | .assign target _ value _ => if r.binds target then value.placeUses r else value.valueUses r
  | _ => some []

/-- The variable that is stored to. -/
def owner (r : References) : TransferOperation → Option Owner
  | .assign target _ _ _ => if r.binds target then (target.owners r).held else (target.owners r).place
  | _ => none

/-- The variable that an operation sets as a whole. -/
def sets (r : References) : TransferOperation → List Text
  | .assign target _ _ _ => (target.whole fun name => r.byReference name && !r.binds target).toList
  | _ => []

end TransferOperation

/-! ## What one operation reads and writes -/

section

variable {Cell : Type} (I : Interpretation Cell)

theorem place_of_whole (σ : Store Cell) {e : AstExpr} {byReference : Text → Bool} {x : Text}
    (h : e.whole byReference = some x) : (denote I σ e).held = some ⟨x, []⟩ ∧
      ((∀ name, I.references.byReference name = true → byReference name = true) →
        (denote I σ e).place = some ⟨x, []⟩) := by
  induction e using AstExpr.inductOn with
  | hstep e ih =>
    rw [whole_eq] at h
    unfold wholeOf at h
    split at h
    · rename_i name hkind
      split at h
      · cases h
      · rename_i hne
        rw [not_or] at hne
        obtain rfl := Option.some.inj h
        refine ⟨by rw [denote_held, hkind, heldPlace, if_neg hne.1], fun hreference => ?_⟩
        have hnot : ¬I.references.byReference name = true := fun htrue => hne.2 (hreference name htrue)
        rw [denote_place, hkind]
        show (heldPlace I (.identifier name) _).bind _ = _
        rw [heldPlace, if_neg hne.1]
        exact if_neg hnot
    · rename_i name q inner hkind hoperands
      obtain ⟨o, rest, ho, rfl, hnil⟩ := List.map_eq_cons_iff.1 hoperands
      rw [List.map_eq_nil_iff.1 hnil] at ho
      rw [denote_held, denote_place, hkind, ho]
      exact ih o (by simp [ho]) h
    · cases h

mutual

theorem typedValue_decided : ∀ e : TypedExpression,
    DecidedBy Prod.fst (e.valueUses I.references) fun σ : Store Cell => typedValue I σ e
  | .source e => (known I e).value
  | .synthetic _ kind typeName operands =>
    (typedValues_decided operands).map fun values => I.operator kind typeName values

theorem typedValues_decided : ∀ es : List TypedExpression,
    DecidedBy Prod.fst (valueUsesOfAll I.references es) fun σ : Store Cell => typedValues I σ es
  | [] => DecidedBy.const []
  | e :: es => (typedValue_decided e).map₂ (typedValues_decided es) List.cons

end

theorem typedPlace_decided : ∀ e : TypedExpression,
    DecidedBy Prod.fst (e.placeUses I.references) fun σ : Store Cell => typedPlace I σ e
  | .source e => (known I e).place
  | .synthetic _ _ _ _ => DecidedBy.const none

mutual

theorem valueUses_subset (r : References) : ∀ e : TypedExpression, ∀ names ∈ e.valueUses r, names ⊆ e.reads
  | .source e => (read r e).value
  | .synthetic _ _ _ operands => valueUsesOfAll_subset r operands

theorem valueUsesOfAll_subset (r : References) : ∀ es : List TypedExpression,
    ∀ names ∈ valueUsesOfAll r es, names ⊆ typedReadsOfAll es
  | [] => nothing_subset
  | e :: es => both_subset
      (fun names hnames => List.subset_append_of_subset_left _ (valueUses_subset r e names hnames))
      (fun names hnames => List.subset_append_of_subset_right _ (valueUsesOfAll_subset r es names hnames))

end

theorem placeUses_subset (r : References) : ∀ e : TypedExpression, ∀ names ∈ e.placeUses r, names ⊆ e.reads
  | .source e => (read r e).place
  | .synthetic _ _ _ _ => nothing_subset

theorem storedUses_subset (r : References) (operation : TransferOperation) :
    ∀ names ∈ operation.storedUses r, names ⊆ operation.valueReads := by
  cases operation with
  | assign target symbol value conversion =>
    rw [TransferOperation.storedUses]
    split
    · exact placeUses_subset r value
    · exact valueUses_subset r value
  | _ => exact nothing_subset

theorem write_of_ne {place : Place} {value : Value Cell} {σ : Store Cell} {l : Text × List PathStep}
    (h : place.write value σ l ≠ σ l) : l.1 = place.name := by
  by_contra hne
  exact h (if_neg hne)

theorem write_cases (place : Place) (value : Value Cell) (l : Text × List PathStep) :
    (∃ path, l.1 = place.name ∧ relativePath place.access l.2 = some path ∧
      ∀ τ : Store Cell, place.write value τ l = value path) ∨
    ∀ τ : Store Cell, place.write value τ l = τ l := by
  by_cases hname : l.1 = place.name
  · cases hpath : relativePath place.access l.2 with
    | none =>
      refine .inr fun τ => ?_
      show (if l.1 = place.name then _ else _) = _
      rw [if_pos hname, hpath, Option.elim_none]
    | some path =>
      refine .inl ⟨path, hname, rfl, fun τ => ?_⟩
      show (if l.1 = place.name then _ else _) = _
      rw [if_pos hname, hpath, Option.elim_some]
  · exact .inr fun τ => if_neg hname

variable {operation : TransferOperation}

theorem destination_decided (target : AstExpr) (symbol : Option Text) (value : TypedExpression)
    (conversion : Option TypeConversion) :
    DecidedBy Prod.fst ((TransferOperation.assign target symbol value conversion).destinationUses I.references)
      fun σ : Store Cell => destination I σ target := by
  unfold TransferOperation.destinationUses destination
  dsimp only
  split
  · exact (known I target).held
  · exact (known I target).place

theorem stored_decided (target : AstExpr) (symbol : Option Text) (value : TypedExpression)
    (conversion : Option TypeConversion) :
    DecidedBy Prod.fst ((TransferOperation.assign target symbol value conversion).storedUses I.references)
      fun σ : Store Cell => stored I σ target value := by
  unfold TransferOperation.storedUses stored
  dsimp only
  split
  · exact (typedPlace_decided I value).map I.address
  · exact (typedValue_decided I value).map (I.assigned target value)

theorem destination_ownedBy (σ : Store Cell) (target : AstExpr) (symbol : Option Text)
    (value : TypedExpression) (conversion : Option TypeConversion) :
    OwnedBy (destination I σ target)
      ((TransferOperation.assign target symbol value conversion).owner I.references) := by
  unfold TransferOperation.owner destination
  dsimp only
  split
  · exact (ownedBy I σ target).1
  · exact (ownedBy I σ target).2

/-- An operation changes the variable that is stored to, as what is looked up decides. -/
theorem execute_footprint (hplain : operation.isPlain = true)
    (howner : ∀ owner ∈ operation.owner I.references, ∃ x, owner = .named x) {places values : List Text}
    (hplaces : places ∈ operation.destinationUses I.references)
    (hvalues : values ∈ operation.storedUses I.references) :
    Footprint Prod.fst {x | x ∈ places ++ values} {x | operation.owner I.references = some (.named x)}
      (execute I operation) := by
  cases operation with
  | assign target symbol value conversion =>
    constructor
    · intro σ l hne
      rw [execute] at hne
      cases hplace : destination I σ target with
      | none =>
        rw [hplace] at hne
        exact absurd rfl hne
      | some place =>
        rw [hplace] at hne
        rw [write_of_ne hne]
        rcases destination_ownedBy I σ target symbol value conversion place hplace with hpointee | hnamed
        · obtain ⟨x, hx⟩ := howner _ hpointee
          cases hx
        · exact hnamed
    · intro σ τ hagree l hne
      have hplace := (destination_decided I target symbol value conversion).eq hplaces
        (hagree.mono Prod.fst fun x hx => List.mem_append_left _ hx)
      have hvalue := (stored_decided I target symbol value conversion).eq hvalues
        (hagree.mono Prod.fst fun x hx => List.mem_append_right _ hx)
      have hrun : ∀ ρ, ρ = σ ∨ ρ = τ → execute I (.assign target symbol value conversion) ρ =
          (destination I τ target).elim ρ fun place => place.write (stored I τ target value) ρ := by
        rintro ρ (rfl | rfl)
        · rw [execute, hplace, hvalue]
        · rfl
      rw [hrun σ (.inl rfl), hrun τ (.inr rfl)] at hne ⊢
      cases hsome : destination I τ target with
      | none =>
        rw [hsome] at hne
        exact hne.elim (absurd rfl) (absurd rfl)
      | some place =>
        rw [hsome] at hne
        rcases write_cases place (stored I τ target value) l with ⟨path, -, -, hwritten⟩ | hkept
        · exact (hwritten σ).trans (hwritten τ).symm
        · exact hne.elim (absurd (hkept σ)) (absurd (hkept τ))
  | call => cases hplain
  | opaqueStep => cases hplain
  | _ => exact Footprint.unchanged

theorem execute_defines {values : List Text} (hvalues : values ∈ operation.storedUses I.references) :
    Defines Prod.fst {x | x ∈ values} {x | x ∈ operation.sets I.references} (execute I operation) := by
  intro σ τ hagree l hl
  cases operation with
  | assign target symbol value conversion =>
    have hdestination : ∀ ρ : Store Cell, destination I ρ target = some ⟨l.1, []⟩ := by
      intro ρ
      obtain ⟨hheld, hplace⟩ := place_of_whole I ρ (Option.mem_toList.1 hl)
      unfold destination
      split
      · exact hheld
      · rename_i hbinds
        refine hplace fun name hname => ?_
        rw [hname, (Bool.not_eq_true _).mp hbinds]
        rfl
    have hvalue := (stored_decided I target symbol value conversion).eq hvalues hagree
    rw [execute, execute, hdestination, hdestination, hvalue]
    exact (if_pos rfl).trans (if_pos rfl).symm
  | _ => cases hl

/-! ## Conditions -/

/-- The names under which the targets of some operations are recorded. -/
def recordedNames (operations : List TransferOperation) : List Text :=
  (operations.filterMap TransferOperation.target).filterMap expressionVariableName

/-- The variable that an operation stores to is recorded. -/
def Recorded (r : References) (operations : List TransferOperation) (operation : TransferOperation) : Prop :=
  ∀ owner ∈ operation.owner r, ∃ x ∈ recordedNames operations, owner = .named x

/-- What is looked up for the places of targets is read by some value, or was set as a whole before. -/
def KnownPlaces (r : References) (reads : List Text) : List Text → List TransferOperation → Prop
  | _, [] => True
  | names, operation :: operations =>
    (∃ places ∈ operation.destinationUses r, places ⊆ reads ++ names) ∧
      KnownPlaces r reads (names ++ operation.sets r) operations

/-- What an exact summary can tell of. -/
structure Tracked (r : References) (operations : List TransferOperation) : Prop where
  decided : ∀ operation ∈ operations, ∃ values, values ∈ operation.storedUses r
  recorded : ∀ operation ∈ operations, Recorded r operations operation
  known : KnownPlaces r (operations.flatMap TransferOperation.valueReads) [] operations

instance (r : References) (operations : List TransferOperation) (operation : TransferOperation) :
    Decidable (Recorded r operations operation) := by
  unfold Recorded
  infer_instance

instance decidableKnownPlaces (r : References) (reads : List Text) : ∀ (names : List Text)
    (operations : List TransferOperation), Decidable (KnownPlaces r reads names operations)
  | _, [] => .isTrue trivial
  | names, operation :: operations =>
    have := decidableKnownPlaces r reads (names ++ operation.sets r) operations
    inferInstanceAs (Decidable ((∃ places ∈ operation.destinationUses r, places ⊆ reads ++ names) ∧
      KnownPlaces r reads (names ++ operation.sets r) operations))

instance (r : References) (operations : List TransferOperation) : Decidable (Tracked r operations) :=
  decidable_of_iff ((∀ operation ∈ operations, (operation.storedUses r).isSome = true) ∧
    (∀ operation ∈ operations, Recorded r operations operation) ∧
    KnownPlaces r (operations.flatMap TransferOperation.valueReads) [] operations)
    ⟨fun h => ⟨fun operation hoperation => Option.isSome_iff_exists.1 (h.1 operation hoperation), h.2.1, h.2.2⟩,
      fun h => ⟨fun operation hoperation => Option.isSome_iff_exists.2 (h.decided operation hoperation),
        h.recorded, h.known⟩⟩

/-! ## Runs -/

theorem executeAll_footprint {reads : List Text} (operations : List TransferOperation)
    (hplain : ∀ operation ∈ operations, operation.isPlain = true)
    (howner : ∀ operation ∈ operations, ∀ owner ∈ operation.owner I.references, ∃ x, owner = .named x)
    (hdecided : ∀ operation ∈ operations, ∃ values, values ∈ operation.storedUses I.references)
    (hreads : ∀ operation ∈ operations, operation.valueReads ⊆ reads) {names : List Text}
    {writes : Set Text} {f : Store Cell → Store Cell} (hf : Footprint Prod.fst {x | x ∈ reads} writes f)
    (hdefines : Defines Prod.fst {x | x ∈ reads} {x | x ∈ names} f)
    (hknown : KnownPlaces I.references reads names operations) :
    Footprint Prod.fst {x | x ∈ reads}
      (writes ∪ {x | ∃ operation ∈ operations, operation.owner I.references = some (.named x)})
      fun σ => executeAll I operations (f σ) := by
  induction operations generalizing f names writes with
  | nil => exact hf.mono subset_rfl fun x hx => .inl hx
  | cons operation operations ih =>
    obtain ⟨values, hvalues⟩ := hdecided operation List.mem_cons_self
    obtain ⟨⟨places, hplaces, hsubset⟩, hrest⟩ := hknown
    have hstored : values ⊆ reads :=
      List.Subset.trans (storedUses_subset I.references operation values hvalues)
        (hreads operation List.mem_cons_self)
    have huses : {x | x ∈ places ++ values} ⊆ {x | x ∈ reads} ∪ {x | x ∈ names} := by
      intro x hx
      rcases List.mem_append.1 hx with hx | hx
      · exact List.mem_append.1 (hsubset hx)
      · exact .inl (hstored hx)
    have hfirst := execute_footprint I (hplain operation List.mem_cons_self)
      (howner operation List.mem_cons_self) hplaces hvalues
    have hsets : Defines Prod.fst {x | x ∈ places ++ values} {x | x ∈ operation.sets I.references}
        (execute I operation) := fun σ τ hagree =>
      execute_defines I hvalues σ τ (hagree.mono Prod.fst fun x hx => List.mem_append_right _ hx)
    have hdefines' := hf.defines_comp hdefines hfirst hsets huses
    have hnames : {x | x ∈ names ++ operation.sets I.references} ⊆
        {x | x ∈ names} ∪ {x | x ∈ operation.sets I.references} := fun x hx => List.mem_append.1 hx
    have hrun := ih (fun o ho => hplain o (List.mem_cons_of_mem _ ho))
      (fun o ho => howner o (List.mem_cons_of_mem _ ho)) (fun o ho => hdecided o (List.mem_cons_of_mem _ ho))
      (fun o ho => hreads o (List.mem_cons_of_mem _ ho)) (hf.comp hdefines hfirst huses)
      (fun σ τ hagree => (hdefines' σ τ hagree).mono Prod.fst hnames) hrest
    refine hrun.mono subset_rfl ?_
    rintro x ((hx | hx) | ⟨o, ho, hx⟩)
    · exact .inl hx
    · exact .inr ⟨operation, List.mem_cons_self, hx⟩
    · exact .inr ⟨o, List.mem_cons_of_mem _ ho, hx⟩

end

/-! ## Summaries -/

section

variable {f : NameFacts} {operations : List TransferOperation}

theorem applyOperation_eq (summary : TransferSummary) (operation : TransferOperation) :
    (summary.applyOperation f operation).reads =
        summary.reads ++ (({} : TransferSummary).applyOperation f operation).reads ∧
      (summary.applyOperation f operation).writes =
        summary.writes ++ (({} : TransferSummary).applyOperation f operation).writes := by
  cases operation <;> simp [TransferSummary.applyOperation]

theorem foldl_applyOperation (summary : TransferSummary) (operations : List TransferOperation) :
    (operations.foldl (TransferSummary.applyOperation f) summary).reads =
        summary.reads ++ operations.flatMap (fun o => (({} : TransferSummary).applyOperation f o).reads) ∧
      (operations.foldl (TransferSummary.applyOperation f) summary).writes =
        summary.writes ++ operations.flatMap (fun o => (({} : TransferSummary).applyOperation f o).writes) := by
  induction operations generalizing summary with
  | nil => simp
  | cons operation operations ih =>
    obtain ⟨hreads, hwrites⟩ := ih (summary.applyOperation f operation)
    obtain ⟨hreads', hwrites'⟩ := @applyOperation_eq f summary operation
    rw [List.foldl_cons, hreads, hwrites, hreads', hwrites']
    simp

theorem valueReads_subset {operation : TransferOperation} (h : operation ∈ operations) :
    operation.valueReads ⊆ (summarize f operations).reads := by
  intro x hx
  rw [summarize, (foldl_applyOperation {} operations).1]
  apply List.mem_append_right
  refine List.mem_flatMap.2 ⟨operation, h, ?_⟩
  cases operation with
  | assign => exact hx
  | _ => cases hx

theorem isPlain_of_exact (h : (summarize f operations).modeling = .exact) :
    ∀ operation ∈ operations, operation.isPlain = true := by
  have hmax : ∀ a b : ModelingStatus, maxModeling a b = .exact → a = .exact ∧ b = .exact := by
    intro a b
    cases a <;> cases b <;> simp [maxModeling]
  have hcall : ∀ callee, f.callModeling callee ≠ .exact := by
    intro callee
    unfold NameFacts.callModeling
    split
    · simp
    · split <;> simp
  have hrun : ∀ (operations : List TransferOperation) (summary : TransferSummary),
      (operations.foldl (TransferSummary.applyOperation f) summary).modeling = .exact →
      summary.modeling = .exact ∧ ∀ operation ∈ operations, operation.isPlain = true := by
    intro operations
    induction operations with
    | nil => exact fun summary h => ⟨h, by simp⟩
    | cons operation operations ih =>
      intro summary h
      obtain ⟨hfirst, hrest⟩ := ih _ h
      have hplain : summary.modeling = .exact ∧ operation.isPlain = true := by
        cases operation with
        | assign target symbol value conversion => exact ⟨(hmax _ _ hfirst).1, rfl⟩
        | call e => exact absurd (hmax _ _ hfirst).2 (hcall _)
        | opaqueStep => cases hfirst
        | _ => exact ⟨hfirst, rfl⟩
      exact ⟨hplain.1, List.forall_mem_cons.2 ⟨hplain.2, hrest⟩⟩
  exact (hrun operations {} h).2

theorem mem_writes {roots : List AstExpr} (hmade : ∀ operation ∈ operations, Made roots operation)
    (hplain : ∀ operation ∈ operations, operation.isPlain = true) (x : Text) :
    .name x ∈ (summarize f operations).writes ↔ x ∈ recordedNames operations := by
  rw [summarize, (foldl_applyOperation {} operations).2, recordedNames, List.nil_append, List.mem_flatMap]
  simp only [List.mem_filterMap]
  constructor
  · rintro ⟨operation, hoperation, hx⟩
    have hplain := hplain operation hoperation
    cases hmade operation hoperation with
    | @assign target value conversion _ _ =>
      refine ⟨target, ⟨_, hoperation, rfl⟩, ?_⟩
      simp only [TransferSummary.applyOperation, List.nil_append, List.mem_singleton] at hx
      cases hname : expressionVariableName target with
      | none =>
        rw [hname] at hx
        cases hx
      | some name =>
        rw [hname] at hx
        cases hx
        rfl
    | call => cases hplain
    | opaqueStep => cases hplain
    | _ => cases hx
  · rintro ⟨target, ⟨operation, hoperation, htarget⟩, hx⟩
    refine ⟨operation, hoperation, ?_⟩
    cases hmade operation hoperation with
    | @assign target' value conversion _ _ =>
      cases htarget
      simp [TransferSummary.applyOperation, hx]
    | _ => cases htarget

end

/-! ## A store that shows what changes -/

/-- Every assignment stores `true`, and pointers and references lead to one variable. -/
def marking (r : References) (pointed : Text) : Interpretation Bool where
  references := r
  operator _ _ _ _ := false
  indices _ := []
  bitIndex _ := 0
  pointee _ := some ⟨pointed, []⟩
  address _ _ := true
  call _ _ _ := false
  assigned _ _ _ _ := true
  effect _ σ := σ

def Owner.nameOr (pointed : Text) : Owner → Text
  | .named name => name
  | .pointee => pointed

def AccessStep.isBits : AccessStep → Bool
  | .bits _ _ => true
  | _ => false

section

variable {r : References} {pointed : Text}

/-- A place without bits is a part of what its owner leads to. -/
def LeadsTo (pointed : Text) (place : Option Place) (owner : Option Owner) : Prop :=
  ∀ o ∈ owner, ∃ access, (∀ step ∈ access, step.isBits = false) ∧ place = some ⟨o.nameOr pointed, access⟩

theorem leadsTo_part {place : Option Place} {owner : Option Owner} (h : LeadsTo pointed place owner)
    {step : AccessStep} (hstep : step.isBits = false) :
    LeadsTo pointed (place.map fun place => place.part step) owner := by
  intro o ho
  obtain ⟨access, haccess, rfl⟩ := h o ho
  exact ⟨access ++ [step], List.forall_mem_append.2 ⟨haccess, by simpa using hstep⟩, rfl⟩

theorem leadsTo_of_followed {σ : Store Bool} {e : AstExpr} (hfollowed : Followed e)
    (h : LeadsTo pointed (denote (marking r pointed) σ e).held (e.owners r).held) :
    LeadsTo pointed (denote (marking r pointed) σ e).place (e.owners r).place := by
  intro owner howner
  rw [hfollowed.owner] at howner
  obtain ⟨held, hheld, rfl⟩ := Option.map_eq_some_iff.1 howner
  obtain ⟨access, haccess, hplace⟩ := h held hheld
  rw [hfollowed.place, hplace]
  by_cases hfollows : e.kind.follows r = true
  · rw [if_pos hfollows]
    exact ⟨[], by simp, if_pos hfollows⟩
  · rw [if_neg hfollows]
    exact ⟨access, haccess, if_neg hfollows⟩

theorem leadsTo_marking (σ : Store Bool) {e : AstExpr} (hbits : ∀ e' ∈ e.nodes, e'.kind.isDirectAccess = false) :
    LeadsTo pointed (denote (marking r pointed) σ e).held (e.owners r).held ∧
      LeadsTo pointed (denote (marking r pointed) σ e).place (e.owners r).place := by
  induction e using AstExpr.inductOn with
  | hstep e ih =>
    have hpart := fun o ho => ih o ho fun e' he' => hbits e' (nodes_operand ho he')
    have hheld : (e.owners r).held = heldOwner e.kind (e.operands.map (AstExpr.owners r)) := by rw [owners_eq]
    have hfollowed : Followed e → LeadsTo pointed (denote (marking r pointed) σ e).held (e.owners r).held →
        LeadsTo pointed (denote (marking r pointed) σ e).held (e.owners r).held ∧
          LeadsTo pointed (denote (marking r pointed) σ e).place (e.owners r).place :=
      fun h hleads => ⟨hleads, leadsTo_of_followed h hleads⟩
    rcases placeForm e with ⟨name, hkind, h, -⟩ | ⟨name, q, inner, hkind, hoperands⟩ |
      ⟨name, q, base, inner, hkind, hoperands, h, -⟩ | ⟨q, base, index, hkind, hoperands, h, -⟩ |
      ⟨q, base, hkind, hoperands, h⟩ | ⟨q, base, hkind, hoperands, h, hplaceless⟩ |
      ⟨h, hplaceless, -⟩ | ⟨h, hplaceless, -⟩
    · refine hfollowed h fun owner howner => ?_
      rw [hheld, hkind, heldOwner] at howner
      rw [denote_held, hkind, heldPlace]
      split at howner
      · cases howner
      · rename_i hne
        cases howner
        exact ⟨[], by simp, if_neg hne⟩
    · have hinner := hpart inner (by simp [hoperands])
      rw [denote_held, denote_place, owners_eq, hkind, hoperands]
      exact hinner
    · have hinner : inner.kind.isDirectAccess = false :=
        hbits inner (nodes_operand (by simp [hoperands]) (mem_nodes_self inner))
      have hstep : (memberStep (marking r pointed) name (denote (marking r pointed) σ inner)).isBits = false := by
        unfold memberStep
        split
        · rename_i width hwidth
          rw [denote_kind] at hwidth
          rw [hwidth] at hinner
          cases hinner
        · rfl
      refine hfollowed h ?_
      rw [denote_held, hheld, hkind, hoperands]
      exact leadsTo_part (hpart base (by simp [hoperands])).2 hstep
    · refine hfollowed h ?_
      rw [denote_held, hheld, hkind, hoperands]
      exact leadsTo_part (hpart base (by simp [hoperands])).2 rfl
    · refine hfollowed h ?_
      rw [denote_held, hheld, hkind, hoperands]
      rintro owner ⟨⟩
      exact ⟨[], by simp, rfl⟩
    all_goals
      refine hfollowed h ?_
      rw [hplaceless.owner]
      exact fun _ h => by cases h

theorem relativePath_absolutePath {access : List AccessStep} (h : ∀ step ∈ access, step.isBits = false)
    (path : List PathStep) : relativePath access (absolutePath access path) = some path := by
  induction access with
  | nil => rfl
  | cons step access ih =>
    obtain ⟨hstep, hrest⟩ := List.forall_mem_cons.1 h
    cases step with
    | element index => rw [absolutePath, relativePath, if_pos rfl, ih hrest]
    | member name => rw [absolutePath, relativePath, if_pos rfl, ih hrest]
    | bits width index => cases hstep

theorem stored_marking (σ : Store Bool) (target : AstExpr) (value : TypedExpression) :
    stored (marking r pointed) σ target value = fun _ => true := by
  unfold stored
  split <;> rfl

theorem execute_marking {operation : TransferOperation} {σ : Store Bool} {l : Text × List PathStep}
    (h : σ l = true) : execute (marking r pointed) operation σ l = true := by
  cases operation with
  | assign target symbol value conversion =>
    rw [execute, stored_marking]
    cases destination (marking r pointed) σ target with
    | none => exact h
    | some place =>
      rcases write_cases place (fun _ => true) l with ⟨path, -, -, hwritten⟩ | hkept
      · exact hwritten σ
      · exact (hkept σ).trans h
  | _ => exact h

theorem executeAll_marking (operations : List TransferOperation) {σ : Store Bool}
    {l : Text × List PathStep} (h : σ l = true) : executeAll (marking r pointed) operations σ l = true := by
  induction operations generalizing σ with
  | nil => exact h
  | cons operation operations ih => exact ih (execute_marking h)

/-- The variable of a target changes. -/
theorem executeAll_changes {operations : List TransferOperation} {operation : TransferOperation}
    (hoperation : operation ∈ operations)
    (hbits : ∀ target ∈ operation.target, ∀ e ∈ target.nodes, e.kind.isDirectAccess = false) {owner : Owner}
    (howner : operation.owner r = some owner) (σ : Store Bool) :
    ∃ path, executeAll (marking r pointed) operations σ (owner.nameOr pointed, path) = true := by
  induction operations generalizing σ with
  | nil => cases hoperation
  | cons first operations ih =>
    rcases List.mem_cons.1 hoperation with rfl | hoperation
    · cases operation with
      | assign target symbol value conversion =>
        have hleads : LeadsTo pointed (destination (marking r pointed) σ target)
            ((TransferOperation.assign target symbol value conversion).owner r) := by
          obtain ⟨hheld, hplace⟩ := @leadsTo_marking r pointed σ target (hbits target rfl)
          unfold destination TransferOperation.owner
          dsimp only
          show LeadsTo pointed (if r.binds target then _ else _) _
          split
          · exact hheld
          · exact hplace
        obtain ⟨access, haccess, hplace⟩ := hleads owner howner
        have hwritten : execute (marking r pointed) (.assign target symbol value conversion) σ
            (owner.nameOr pointed, absolutePath access []) = true := by
          rw [execute, hplace, stored_marking]
          show (if _ then _ else _) = _
          rw [if_pos rfl, relativePath_absolutePath haccess]
          rfl
        exact ⟨absolutePath access [], executeAll_marking operations hwritten⟩
      | _ => cases howner
    · exact ih hoperation (execute (marking r pointed) first σ)

end

/-! ## Edges -/

def AstKind.isCall : AstKind → Bool
  | .call _ _ => true
  | _ => false

/-- No expression of a body calls. -/
def Pou.CallFree (pou : Pou) : Prop := ∀ e ∈ nodesOfAll (rootsOf pou.statements), e.kind.isCall = false

variable (a : Annotations) (pou : Pou) (f : NameFacts) (r : References)

/-- A variable, as it stands in an expression. -/
def variableAt (id start : ℕ) (name : Text) : AstExpr :=
  ⟨id, ⟨start, start + 1⟩, .reference (.member (some name)) (some name), "DINT".toList,
    [leaf (id + 1) start 1 (.identifier name)]⟩

/-- `r REF= x` is tracked, and `r := 5` changes a variable that is not recorded. -/
example : Tracked ⟨fun name => name = "main.r".toList, fun _ => true⟩
      [.assign (variableAt 0 0 "main.r".toList) (some "main.r".toList)
        (.source (variableAt 2 5 "main.x".toList)) none] ∧
    ¬Tracked ⟨fun name => name = "main.r".toList, fun _ => false⟩
      [.assign (variableAt 0 0 "main.r".toList) (some "main.r".toList)
        (.source (leaf 2 5 1 (.literal (.integer "5".toList)))) none] := by decide +kernel

def elementStatements (array index : Text) (value : AstKind) : List Statement :=
  [.assignment ⟨0, 9⟩ ⟨0, ⟨0, 4⟩, .reference .index none, "DINT".toList,
    [variableAt 1 0 array, variableAt 3 2 index]⟩ (leaf 5 8 1 value)]

/-- `array[index] := value` -/
def elementPou (array index : Text) (value : AstKind)
    (placed : Placed (rootsOf (elementStatements array index value))) : Pou where
  stateful := false
  span := ⟨0, 9⟩
  initialValues := []
  statements := elementStatements array index value
  placed := placed
  nodupStatements := by simp [elementStatements, spansOf, Statement.spans]
  statementSpan := by
    simp [elementStatements, rootsOf, Statement.roots, spansOf, Statement.spans, leaf]

/-- `z[b] := 1` -/
def misnamedElement : Pou :=
  elementPou "main.z".toList "main.b".toList (.literal (.integer "1".toList)) (by
    refine ⟨by decide +kernel, by decide +kernel, ?_⟩
    simp [elementStatements, variableAt, rootsOf, Statement.roots, nodesOfAll, AstExpr.nodes, leaf])

/-- `a[b] := b` -/
def namedElement : Pou :=
  elementPou "main.a".toList "main.b".toList (.identifier "main.b".toList) (by
    refine ⟨by decide +kernel, by decide +kernel, ?_⟩
    simp [elementStatements, variableAt, rootsOf, Statement.roots, nodesOfAll, AstExpr.nodes, leaf])

def plainFacts : NameFacts where
  qualified _ := true
  implemented _ := false
  outputs _ := []

def noReferences : References where
  byReference _ := false
  binds _ := false

/-- Numbers, which stand in the cell of an elementary variable. -/
def integers : Interpretation ℤ where
  references := noReferences
  operator kind _ operands := fun path =>
    match kind, operands with
    | .literal (.integer raw), _ => (raw.foldl (fun n c => 10 * n + (c.toNat - 48)) 0 : ℕ)
    | .binary operator, [left, right] => if operator = "+".toList then left path + right path else 0
    | _, _ => 0
  indices value := [value []]
  bitIndex value := (value []).toNat
  pointee _ := none
  address _ _ := 0
  call _ _ _ := 0
  assigned _ _ value := value
  effect _ σ := σ

/-- The operations on the last edge of a graph. -/
def lastOperations (pou : Pou) : List TransferOperation :=
  ((graphOf plainAnnotations pou).edges.getLast?.bind Edge.transfer).getD []

/-- The last edge of a graph, where it has operations and does not go back. -/
theorem exists_lastEdge {pou : Pou}
    (h : (graphOf plainAnnotations pou).edges.getLast?.any (fun edge =>
      !edge.isBackEdge && edge.transfer.isSome) = true) :
    ∃ edge ∈ (graphOf plainAnnotations pou).edges, edge.transfer = some (lastOperations pou) ∧
      edge.summary plainFacts = some (summarize plainFacts (lastOperations pou)) := by
  obtain ⟨edge, hlast, hedge⟩ := (Option.any_eq_true _ _).1 h
  rw [Bool.and_eq_true, Bool.not_eq_true'] at hedge
  obtain ⟨operations, htransfer⟩ := Option.isSome_iff_exists.1 hedge.2
  have hoperations : lastOperations pou = operations := by
    rw [lastOperations, hlast, Option.bind_some, htransfer, Option.getD_some]
  refine ⟨edge, List.mem_of_getLast? hlast, by rw [htransfer, hoperations], ?_⟩
  rw [Edge.summary, htransfer, hedge.1, hoperations]
  rfl

end SemantiST.Stg
