import SemantiST.Lib.Footprint
import SemantiST.Stg.Summary

/-!
# What operations do

Stores of variables, the places in them that expressions stand for, and what the operations of an edge
do to them.  A variable is a tree: its elements, members and bits, each with a path to it.  The name of a
reference stands for what it refers to; only the assignment that binds it changes what the reference
itself holds.  What operators and literals give, how a value is converted when it is assigned, and what
calls do comes from outside.
-/

namespace SemantiST.Stg

open Lib Semantic

/-! ## Stores -/

inductive PathStep where
  | element (index : List ℤ)
  | member (name : Option Text)
  | bit (position : ℕ)
deriving DecidableEq

/-- A step of an access; it may stand for several bits. -/
inductive AccessStep where
  | element (index : List ℤ)
  | member (name : Option Text)
  | bits (width index : ℕ)
deriving DecidableEq

/-- A part of a variable. -/
structure Place where
  name : Text
  access : List AccessStep
deriving DecidableEq

def Place.part (place : Place) (step : AccessStep) : Place := ⟨place.name, place.access ++ [step]⟩

/-- What is under a path, seen from an access. -/
def relativePath : List AccessStep → List PathStep → Option (List PathStep)
  | [], path => some path
  | .element index :: access, .element index' :: path =>
    if index = index' then relativePath access path else none
  | .member name :: access, .member name' :: path =>
    if name = name' then relativePath access path else none
  | .bits width index :: access, .bit position :: path =>
    if index * width ≤ position ∧ position < index * width + width then
      relativePath access (.bit (position - index * width) :: path)
    else none
  | _, _ => none

/-- Where a path under an access is. -/
def absolutePath : List AccessStep → List PathStep → List PathStep
  | [], path => path
  | .element index :: access, path => .element index :: absolutePath access path
  | .member name :: access, path => .member name :: absolutePath access path
  | .bits width index :: access, path =>
    match absolutePath access path with
    | .bit position :: rest => .bit (index * width + position) :: rest
    | other => other

variable {Cell : Type}

abbrev Value (Cell : Type) := List PathStep → Cell

abbrev Store (Cell : Type) := Text × List PathStep → Cell

def Place.read (place : Place) (σ : Store Cell) : Value Cell := fun path =>
  σ (place.name, absolutePath place.access path)

def Place.write (place : Place) (value : Value Cell) (σ : Store Cell) : Store Cell := fun (name, path) =>
  if name = place.name then (relativePath place.access path).elim (σ (name, path)) value
  else σ (name, path)

/-! ## Expressions -/

/-- The variables and members that are references (declared as one, standing at the place of another
variable, or passed by reference), and the targets of the assignments that bind one. -/
structure References where
  byReference : Text → Bool
  binds : AstExpr → Bool

/-- What comes from outside. -/
structure Interpretation (Cell : Type) where
  references : References
  operator : ExpressionKind → Text → List (Value Cell) → Value Cell
  indices : Value Cell → List ℤ
  bitIndex : Value Cell → ℕ
  pointee : Value Cell → Option Place
  address : Option Place → Value Cell
  call : AstExpr → Store Cell → Value Cell
  /-- What an assignment to a target stores of a value. -/
  assigned : AstExpr → TypedExpression → Value Cell → Value Cell
  effect : TransferOperation → Store Cell → Store Cell

def AstKind.isDirectAccess : AstKind → Bool
  | .directAccess _ => true
  | _ => false

/-- The name of a reference is used. -/
def AstKind.follows (r : References) : AstKind → Bool
  | .identifier name => r.byReference name
  | .reference (.member _) qualifiedName | .reference .index qualifiedName =>
    qualifiedName.any r.byReference
  | _ => false

/-- What an expression stands for: a place, if it is one, and a value.  A reference is held at a place of
its own. -/
structure Denoted (Cell : Type) where
  kind : AstKind
  held : Option Place
  place : Option Place
  value : Value Cell

variable (I : Interpretation Cell)

/-- The operands whose values count: of a member only where it is some bits. -/
def evaluated {α : Type} (kindOf : α → AstKind) (kind : AstKind) (operands : List α) : List α :=
  match kind, operands with
  | .reference (.member _) _, [base, inner] => base :: if (kindOf inner).isDirectAccess then [inner] else []
  | _, operands => operands

/-- The last step of an access to a member. -/
def memberStep (name : Option Text) (inner : Denoted Cell) : AccessStep :=
  match inner.kind with
  | .directAccess width => .bits width (I.bitIndex inner.value)
  | _ => .member name

/-- Where what an expression names is held. -/
def heldPlace (kind : AstKind) (operands : List (Denoted Cell)) : Option Place :=
  match kind, operands with
  | .identifier name, _ => if name = unresolved then none else some ⟨name, []⟩
  | .reference (.member _) _, [inner] => inner.held
  | .reference (.member name) _, [base, inner] =>
    base.place.map fun place => place.part (memberStep I name inner)
  | .reference .index _, [base, index] =>
    base.place.map fun place => place.part (.element (I.indices index.value))
  | .reference .deref _, [base] => I.pointee base.value
  | _, _ => none

/-- The place that an expression stands for: a reference is followed. -/
def placeOf (σ : Store Cell) (kind : AstKind) (operands : List (Denoted Cell)) : Option Place :=
  match kind, operands with
  | .reference (.member _) _, [inner] => inner.place
  | kind, operands => (heldPlace I kind operands).bind fun place =>
    if kind.follows I.references then I.pointee (place.read σ) else some place

def valueOf (σ : Store Cell) (e : AstExpr) (operands : List (Denoted Cell)) : Value Cell :=
  match e.kind, operands with
  | .call _ _, _ => I.call e σ
  | .reference .address _, [base] => I.address base.place
  | kind, operands =>
    (placeOf I σ kind operands).elim
      (I.operator kind.expressionKind e.typeName ((evaluated Denoted.kind kind operands).map Denoted.value))
      fun place => place.read σ

mutual

def denote (σ : Store Cell) : AstExpr → Denoted Cell
  | ⟨id, span, kind, typeName, operands⟩ =>
    let denoted := denoteAll σ operands
    ⟨kind, heldPlace I kind denoted, placeOf I σ kind denoted,
      valueOf I σ ⟨id, span, kind, typeName, operands⟩ denoted⟩

def denoteAll (σ : Store Cell) : List AstExpr → List (Denoted Cell)
  | [] => []
  | e :: es => denote σ e :: denoteAll σ es

end

mutual

def typedValue (σ : Store Cell) : TypedExpression → Value Cell
  | .source e => (denote I σ e).value
  | .synthetic _ kind typeName operands => I.operator kind typeName (typedValues σ operands)

def typedValues (σ : Store Cell) : List TypedExpression → List (Value Cell)
  | [] => []
  | e :: es => typedValue σ e :: typedValues σ es

end

def typedPlace (σ : Store Cell) : TypedExpression → Option Place
  | .source e => (denote I σ e).place
  | .synthetic _ _ _ _ => none

/-! ## Operations -/

/-- Where an assignment stores: one that binds a reference, where the reference is held. -/
def destination (σ : Store Cell) (target : AstExpr) : Option Place :=
  if I.references.binds target then (denote I σ target).held else (denote I σ target).place

/-- What an assignment stores: one that binds a reference, what the reference is to refer to. -/
def stored (σ : Store Cell) (target : AstExpr) (value : TypedExpression) : Value Cell :=
  if I.references.binds target then I.address (typedPlace I σ value)
  else I.assigned target value (typedValue I σ value)

/-- What an operation does.  A target that is no place of a variable leaves the store as it is. -/
def execute (operation : TransferOperation) (σ : Store Cell) : Store Cell :=
  match operation with
  | .assign target _ value _ =>
    (destination I σ target).elim σ fun place => place.write (stored I σ target value) σ
  | .call _ | .opaqueStep _ => I.effect operation σ
  | .return | .allocation _ _ => σ

def executeAll (operations : List TransferOperation) (σ : Store Cell) : Store Cell :=
  operations.foldl (fun σ operation => execute I operation σ) σ

/-- What a summary says of operations holds: the variables that change are written, and what changes
is determined by the variables that are read. -/
def SoundSummary (operations : List TransferOperation) (summary : TransferSummary) : Prop :=
  Footprint Prod.fst {x | x ∈ summary.reads} {x | .name x ∈ summary.writes} (executeAll I operations)

end SemantiST.Stg
