import SemantiST.Intake.Comments

/-!
# Chained assignments

`ChainedAssignment` (`normalize/rules/codesys.py`): a statement `a := b := e;` is split into `a := e; b := e;`.
-/

namespace SemantiST.Intake

open Lib

/-! ## The rule -/

/-- `STATEMENT_START`. -/
def statementStart : List String := [";", "THEN", "ELSE", "DO", "REPEAT", "END_VAR", ":"]

/-- The tokens behind the members, indices and dereferences of a reference, in so many open brackets. -/
def accessesEnd : ℕ → List LosslessToken → Option (List LosslessToken)
  | 0, [] => some []
  | _ + 1, [] => none
  | 0, token :: rest =>
    if token.Is "." then
      match rest with
      | name :: more =>
        if name.kind = .identifier ∨ name.kind = .keyword then accessesEnd 0 more else some (token :: name :: more)
      | [] => some [token]
    else if token.Is "^" then accessesEnd 0 rest
    else if token.Is "[" then accessesEnd 1 rest
    else some (token :: rest)
  | depth + 1, token :: rest =>
    accessesEnd (if token.Is "[" then depth + 2 else if token.Is "]" then depth else depth + 1) rest

/-- `_reference_end`: a reference and the tokens behind it. -/
def referenceEnd (tokens : List LosslessToken) : Option (List LosslessToken × List LosslessToken) :=
  match tokens with
  | token :: rest =>
    if token.kind = .identifier then
      (accessesEnd 0 rest).map fun after => ((token :: rest).take (rest.length + 1 - after.length), after)
    else none
  | [] => none

/-- The targets at the start of a chain, and the tokens behind them. -/
def chainTargets : ℕ → List LosslessToken → List (List LosslessToken) × List LosslessToken
  | 0, tokens => ([], tokens)
  | fuel + 1, tokens =>
    match referenceEnd tokens with
    | some (target, assign :: rest) =>
      if assign.Is ":=" then
        let (targets, rest) := chainTargets fuel rest
        (target :: targets, rest)
      else ([], tokens)
    | _ => ([], tokens)

/-- The tokens up to a semicolon outside of brackets, and those from it on. -/
def chainExpression : ℤ → List LosslessToken → Option (List LosslessToken × List LosslessToken)
  | _, [] => none
  | depth, token :: rest =>
    if depth = 0 ∧ token.Is ";" = true then some ([], token :: rest)
    else
      let depth :=
        if token.Is "(" || token.Is "[" then depth + 1
        else if token.Is ")" || token.Is "]" then depth - 1
        else depth
      (chainExpression depth rest).map fun read => (token :: read.1, read.2)

/-- A chain: its targets, its expression and the tokens from the semicolon on. -/
structure Chain where
  targets : List (List LosslessToken)
  expression : List LosslessToken
  rest : List LosslessToken
deriving DecidableEq

/-- `chained_assignment` -/
def chainedAssignment (tokens : List LosslessToken) : Option Chain := do
  let (targets, rest) := chainTargets tokens.length tokens
  guard (2 ≤ targets.length)
  let (expression, rest) ← chainExpression 0 rest
  guard (expression ≠ [])
  return { targets, expression, rest }

namespace Chain

variable (chain : Chain)

/-- An identifier stands before an opening parenthesis. -/
def callIn : List LosslessToken → Bool
  | name :: paren :: rest => (name.kind = .identifier && paren.Is "(") || callIn (paren :: rest)
  | _ => false

/-- The names that the targets start with. -/
def names : List Text := chain.targets.filterMap fun target => target.head?.map LosslessToken.upper

def mentions (tokens : List LosslessToken) : Bool := tokens.any fun token => token.isWord && token.upper ∈ chain.names

/-- Neither calls nor targets in the expression and the indices. -/
def accepted : Bool :=
  !(chain.expression :: chain.targets).any callIn && !chain.mentions chain.expression &&
    !chain.targets.any fun target => chain.mentions target.tail

def spanText (index : SourceIndex) (tokens : List LosslessToken) : Text :=
  index.slice ((tokens.head?.map LosslessToken.start).getD 0) ((tokens.getLast?.map LosslessToken.stop).getD 0)

/-- The assignments that are written, each a target and the expression. -/
def statements : List (List LosslessToken × List LosslessToken) :=
  chain.targets.map fun target => (target, chain.expression)

def statementsText (index : SourceIndex) : Text :=
  [' '].intercalate (chain.statements.map fun statement =>
    spanText index statement.1 ++ " := ".toList ++ spanText index statement.2 ++ ";".toList)

end Chain

def chainedAssignmentId : Text := "chained-assignment".toList

/-- The first chain of a unit that contains the place of a diagnostic, with its first token. -/
def chainAt (offset : ℕ) : List LosslessToken → Option (LosslessToken × Chain)
  | before :: first :: rest =>
    let here := do
      guard (Among before.text statementStart || Among before.upper statementStart)
      let chain ← chainedAssignment (first :: rest)
      let semicolon ← chain.rest.head?
      guard (first.start ≤ offset ∧ offset ≤ semicolon.stop)
      return (first, chain)
    here.or (chainAt offset (first :: rest))
  | _ => none

/-- `ChainedAssignment.propose`; `message` is that of the diagnostic. -/
def proposeChainedAssignment (message : Text) (context : RuleContext) (file : Text) (located : Located) :
    Option Proposal := do
  let unit ← located.unit
  guard (startsWith message "Expected Struct-literal, got Assignment")
  let index := context.index file
  let tokens := (index.significant.take (index.significantIndex unit.stop)).drop (index.significantIndex unit.start)
  let (first, chain) ← chainAt located.offset tokens
  let semicolon ← chain.rest.head?
  guard (chain.accepted = true)
  return {
    rule := chainedAssignmentId
    key := { rule := chainedAssignmentId, file, offset := first.start }
    edits := [{ file, start := first.start, stop := semicolon.stop, replacement := chain.statementsText index }] }

/-! ## Terms -/

/-- Expressions without calls; the indices of an array are one term, and so are the parts of an aggregate.
`part` is a bit or another sized part of a variable, `address` a direct address. -/
inductive Term where
  | name (x : Text)
  | member (t : Term) (name : Text)
  | element (t index : Term)
  | deref (t : Term)
  | part (t : Term) (place : Text)
  | address (x : Text)
  | literal (x : Text)
  | unary (op : Text) (t : Term)
  | binary (op : Text) (left right : Term)
  | paren (t : Term)

namespace Term

/-- The term is a variable reference. -/
def isReference : Term → Bool
  | name _ => true
  | member t _ => t.isReference
  | element t _ => t.isReference
  | deref t => t.isReference
  | _ => false

end Term

/-- A token that is no bracket, separator or access. -/
def LosslessToken.Neutral (token : LosslessToken) : Prop :=
  Among token.text ["(", ")", "[", "]", ";", ":=", ".", "^"] = false

/-- The texts of some tokens. -/
def textOf (tokens : List LosslessToken) : Text := tokens.flatMap LosslessToken.text

/-- The tokens of a term.  Within brackets, it may be an aggregate that gives values to fields. -/
inductive Renders : Bool → Term → List LosslessToken → Prop
  | name {inside token} : token.isWord = true → token.Neutral → Renders inside (.name token.text) [token]
  | member {inside t tokens dot name} : Renders inside t tokens → t.isReference = true → dot.Is "." = true →
      name.isWord = true → name.Neutral → Renders inside (.member t name.text) (tokens ++ [dot, name])
  | element {inside t tokens opening index inner closing} : Renders inside t tokens → t.isReference = true →
      opening.Is "[" = true → Renders true index inner → closing.Is "]" = true →
      Renders inside (.element t index) (tokens ++ opening :: (inner ++ [closing]))
  | deref {inside t tokens caret} : Renders inside t tokens → t.isReference = true → caret.Is "^" = true →
      Renders inside (.deref t) (tokens ++ [caret])
  | part {inside t tokens dot first digits} : Renders inside t tokens → t.isReference = true → dot.Is "." = true →
      first.isWord = false → (∀ token ∈ first :: digits, token.Neutral) →
      Renders inside (.part t (textOf (first :: digits))) (tokens ++ dot :: first :: digits)
  | address {inside first digits} : first.kind = .directAccess → first.Neutral →
      (∀ token ∈ digits, (token.kind = .number ∧ token.Neutral) ∨ token.Is "." = true) →
      Renders inside (.address (textOf (first :: digits))) (first :: digits)
  | literal {inside token} : token.Neutral → Renders inside (.literal token.text) [token]
  | decimal {inside whole dot fraction} : whole.kind = .number → whole.Neutral → dot.Is "." = true →
      fraction.kind = .number → fraction.Neutral →
      Renders inside (.literal (textOf [whole, dot, fraction])) [whole, dot, fraction]
  | unary {inside t tokens op} : op.Neutral → op.kind ≠ .identifier → Renders inside t tokens →
      Renders inside (.unary op.text t) (op :: tokens)
  | binary {inside t left op t' right} : Renders inside t left → op.Neutral → Renders inside t' right →
      Renders inside (.binary op.text t t') (left ++ op :: right)
  | paren {inside t opening tokens closing} : opening.Is "(" = true → opening.kind = .symbol →
      Renders true t tokens → closing.Is ")" = true → Renders inside (.paren t) (opening :: (tokens ++ [closing]))
  | array {inside t opening tokens closing} : opening.Is "[" = true → opening.kind = .symbol →
      Renders true t tokens → closing.Is "]" = true →
      Renders inside (.unary opening.text t) (opening :: (tokens ++ [closing]))
  | field {t name assign tokens} : name.isWord = true → name.Neutral → assign.Is ":=" = true →
      Renders true t tokens → Renders true (.unary name.text t) (name :: assign :: tokens)

/-! ## Meaning -/

/-- What statements run on: a store has a content in each cell.  A place covers cells, and different places may
share some: other names for a variable, a structure and its members, a word and its bits. -/
structure Machine where
  Cell : Type
  Content : Type
  Place : Type
  Value : Type
  covers : Place → Cell → Bool
  /-- What the cells of a place hold when it receives a value, converted to its type. -/
  content : Place → Value → Cell → Content
  read : Place → (Cell → Content) → Value
  read_congr : ∀ (place : Place) (σ τ : Cell → Content),
    (∀ cell, covers place cell = true → σ cell = τ cell) → read place σ = read place τ
  nowhere : Place
  name : Text → (Cell → Content) → Place
  address : Text → Place
  member : Text → Place → Place
  part : Text → Place → Place
  element : Value → Place → Place
  pointee : Value → Place
  literal : Text → Value
  unary : Text → Value → Value
  binary : Text → Value → Value → Value

namespace Machine

variable (m : Machine)

abbrev Store := m.Cell → m.Content

/-- The place and the value of a term. -/
def denote (σ : m.Store) : Term → m.Place × m.Value
  | .name x => (m.name x σ, m.read (m.name x σ) σ)
  | .member t x =>
    let place := m.member x (denote σ t).1
    (place, m.read place σ)
  | .element t index =>
    let place := m.element (denote σ index).2 (denote σ t).1
    (place, m.read place σ)
  | .deref t =>
    let place := m.pointee (denote σ t).2
    (place, m.read place σ)
  | .part t x =>
    let place := m.part x (denote σ t).1
    (place, m.read place σ)
  | .address x => (m.address x, m.read (m.address x) σ)
  | .literal x => (m.nowhere, m.literal x)
  | .unary op t => (m.nowhere, m.unary op (denote σ t).2)
  | .binary op t t' => (m.nowhere, m.binary op (denote σ t).2 (denote σ t').2)
  | .paren t => (m.nowhere, (denote σ t).2)

def locate (σ : m.Store) (t : Term) : m.Place := (m.denote σ t).1

def evaluate (σ : m.Store) (t : Term) : m.Value := (m.denote σ t).2

def write (place : m.Place) (v : m.Value) (σ : m.Store) : m.Store := fun cell =>
  if m.covers place cell = true then m.content place v cell else σ cell

/-- An assignment. -/
def assign (target expression : Term) (σ : m.Store) : m.Store :=
  m.write (m.locate σ target) (m.evaluate σ expression) σ

/-- The assignments of some targets in order, as they are written. -/
def split (targets : List Term) (expression : Term) (σ : m.Store) : m.Store :=
  targets.foldl (fun σ target => m.assign target expression σ) σ

/-- The chain: every target receives the value of the expression at the start, the last target first. -/
def chain (targets : List Term) (expression : Term) (σ : m.Store) : m.Store :=
  targets.foldr (fun target τ => m.write (m.locate σ target) (m.evaluate σ expression) τ) σ

/-- What the chain gives to some targets, the first target first. -/
def given (targets : List Term) (expression : Term) (σ : m.Store) : m.Store :=
  targets.foldl (fun τ target => m.write (m.locate σ target) (m.evaluate σ expression) τ) σ

/-- **No target disturbs a later assignment**: when the targets before one have their value, it lies where it lay,
and the expression gives it what it gave. -/
def Undisturbed (targets : List Term) (expression : Term) (σ : m.Store) : Prop :=
  ∀ before target after, targets = before ++ target :: after →
    m.locate (m.given before expression σ) target = m.locate σ target ∧
      ∀ cell, m.covers (m.locate σ target) cell = true →
        m.content (m.locate σ target) (m.evaluate (m.given before expression σ) expression) cell =
          m.content (m.locate σ target) (m.evaluate σ expression) cell

/-- Targets that share cells give them the same. -/
def Agree (targets : List Term) (expression : Term) (σ : m.Store) : Prop :=
  targets.Pairwise fun target other => ∀ cell, m.covers (m.locate σ target) cell = true →
    m.covers (m.locate σ other) cell = true →
      m.content (m.locate σ target) (m.evaluate σ expression) cell =
        m.content (m.locate σ other) (m.evaluate σ expression) cell

end Machine

/-! ## Reading a chain -/

/-- The tokens of targets, each with its assignment sign. -/
inductive RendersTargets : List Term → List (List LosslessToken) → List LosslessToken → Prop
  | nil : RendersTargets [] [] []
  | cons {t ts target targets assign tokens} : Renders false t target → t.isReference = true →
      target.head?.any (·.kind = .identifier) = true → assign.Is ":=" = true →
      RendersTargets ts targets tokens → RendersTargets (t :: ts) (target :: targets) (target ++ assign :: tokens)

section Reading

variable {inside : Bool} {t : Term} {tokens rest : List LosslessToken} {token : LosslessToken}
  {symbol other : String}

theorem is_ne (h : token.Is symbol = true) (hne : symbol.toList ≠ other.toList) : token.Is other = false := by
  rw [LosslessToken.Is, decide_eq_true_eq] at h
  rw [LosslessToken.Is, h, decide_eq_false_iff_not]
  exact hne

theorem LosslessToken.Neutral.is (h : token.Neutral)
    (hmem : symbol ∈ ["(", ")", "[", "]", ";", ":=", ".", "^"]) : token.Is symbol = false := by
  rw [LosslessToken.Neutral, Among, List.any_eq_false] at h
  rw [LosslessToken.Is, decide_eq_false_iff_not]
  exact fun heq => h symbol hmem (decide_eq_true heq.symm)

/-! ### Plain tokens -/

/-- A token that is no bracket and no semicolon. -/
def Plain (token : LosslessToken) : Prop := ∀ symbol ∈ ["(", ")", "[", "]", ";"], token.Is symbol = false

theorem LosslessToken.Neutral.plain (h : token.Neutral) : Plain token :=
  fun _ hsymbol => h.is (List.mem_of_mem_take (i := 5) hsymbol)

theorem plain_of_is (h : token.Is symbol = true) (hsymbol : symbol ∈ [".", "^", ":="]) : Plain token := by
  have hne : ∀ symbol ∈ [".", "^", ":="], ∀ other ∈ ["(", ")", "[", "]", ";"], symbol.toList ≠ other.toList := by
    decide
  exact fun other hother => is_ne h (hne symbol hsymbol other hother)

/-- How much deeper a token leads. -/
def bracketDepth (token : LosslessToken) : ℤ :=
  if token.Is "(" || token.Is "[" then 1 else if token.Is ")" || token.Is "]" then -1 else 0

theorem bracketDepth_opening (h : token.Is "(" = true ∨ token.Is "[" = true) : bracketDepth token = 1 := by
  rw [bracketDepth, if_pos (by simpa using h)]

theorem bracketDepth_closing (h : token.Is ")" = true ∨ token.Is "]" = true) : bracketDepth token = -1 := by
  have hopen : (token.Is "(" || token.Is "[") = false := by
    rcases h with h | h
    · rw [is_ne h (by decide), is_ne h (by decide), Bool.false_or]
    · rw [is_ne h (by decide), is_ne h (by decide), Bool.false_or]
  rw [bracketDepth, hopen, if_neg Bool.false_ne_true, if_pos (by simpa using h)]

theorem Plain.bracketDepth (h : Plain token) : bracketDepth token = 0 := by
  rw [Intake.bracketDepth, h "(" (by decide), h "[" (by decide), h ")" (by decide), h "]" (by decide)]
  rfl

/-! ### Accesses -/

/-- What a token outside of brackets does that is no dot. -/
theorem accessesEnd_zero (hdot : token.Is "." = false) : accessesEnd 0 (token :: rest) =
    if token.Is "^" then accessesEnd 0 rest else if token.Is "[" then accessesEnd 1 rest else some (token :: rest) := by
  rw [accessesEnd.eq_def]
  simp only [hdot, Bool.false_eq_true, if_false]

theorem accessesEnd_member {name : LosslessToken} (hdot : token.Is "." = true) (hword : name.isWord = true) :
    accessesEnd 0 (token :: name :: rest) = accessesEnd 0 rest := by
  have hkind : name.kind = .identifier ∨ name.kind = .keyword := by
    simpa [LosslessToken.isWord, or_comm] using hword
  exact (if_pos hdot).trans (if_pos hkind)

theorem accessesEnd_part {first : LosslessToken} (hdot : token.Is "." = true) (hword : first.isWord = false) :
    accessesEnd 0 (token :: first :: rest) = some (token :: first :: rest) := by
  have hkind : ¬(first.kind = .identifier ∨ first.kind = .keyword) := by
    simpa [LosslessToken.isWord, or_comm, and_comm] using hword
  exact (if_pos hdot).trans (if_neg hkind)

theorem accessesEnd_deref (hcaret : token.Is "^" = true) : accessesEnd 0 (token :: rest) = accessesEnd 0 rest := by
  rw [accessesEnd_zero (is_ne hcaret (by decide)), if_pos hcaret]

theorem accessesEnd_opening (hopen : token.Is "[" = true) (depth : ℕ) :
    accessesEnd depth (token :: rest) = accessesEnd (depth + 1) rest := by
  have hdot : token.Is "." = false := is_ne hopen (by decide)
  have hcaret : token.Is "^" = false := is_ne hopen (by decide)
  cases depth with
  | zero => rw [accessesEnd_zero hdot, if_neg (ne_true_of_eq_false hcaret), if_pos hopen]
  | succ depth => exact congrArg (accessesEnd · rest) (if_pos hopen)

theorem accessesEnd_closing (hclose : token.Is "]" = true) (depth : ℕ) :
    accessesEnd (depth + 1) (token :: rest) = accessesEnd depth rest := by
  have hopen : token.Is "[" = false := is_ne hclose (by decide)
  exact congrArg (accessesEnd · rest) ((if_neg (ne_true_of_eq_false hopen)).trans (if_pos hclose))

/-- A token in brackets that is no bracket is passed. -/
theorem accessesEnd_inside {depth : ℕ} (hopen : token.Is "[" = false) (hclose : token.Is "]" = false) :
    accessesEnd (depth + 1) (token :: rest) = accessesEnd (depth + 1) rest :=
  congrArg (accessesEnd · rest) ((if_neg (ne_true_of_eq_false hopen)).trans (if_neg (ne_true_of_eq_false hclose)))

theorem accessesEnd_plain (h : ∀ token ∈ tokens, Plain token) (depth : ℕ) (rest : List LosslessToken) :
    accessesEnd (depth + 1) (tokens ++ rest) = accessesEnd (depth + 1) rest := by
  induction tokens with
  | nil => rfl
  | cons token tokens ih =>
    obtain ⟨htoken, htokens⟩ := List.forall_mem_cons.1 h
    rw [List.cons_append, accessesEnd_inside (htoken "[" (by decide)) (htoken "]" (by decide))]
    exact ih htokens

/-- The tokens of a term that are no terms are plain, its brackets apart. -/
theorem plain_part {dot first : LosslessToken} {digits : List LosslessToken} (hdot : dot.Is "." = true)
    (h : ∀ token ∈ first :: digits, token.Neutral) : ∀ token ∈ dot :: first :: digits, Plain token :=
  List.forall_mem_cons.2 ⟨plain_of_is hdot (by decide), fun token htoken => (h token htoken).plain⟩

theorem plain_address {first : LosslessToken} {digits : List LosslessToken} (hfirst : first.Neutral)
    (h : ∀ token ∈ digits, (token.kind = .number ∧ token.Neutral) ∨ token.Is "." = true) :
    ∀ token ∈ first :: digits, Plain token := by
  refine List.forall_mem_cons.2 ⟨hfirst.plain, fun token htoken => ?_⟩
  rcases h token htoken with ⟨-, hneutral⟩ | hdot
  · exact hneutral.plain
  · exact plain_of_is hdot (by decide)

theorem plain_decimal {whole dot fraction : LosslessToken} (hwhole : whole.Neutral) (hdot : dot.Is "." = true)
    (hfraction : fraction.Neutral) : ∀ token ∈ [whole, dot, fraction], Plain token :=
  List.forall_mem_cons.2 ⟨hwhole.plain, List.forall_mem_cons.2
    ⟨plain_of_is hdot (by decide), List.forall_mem_singleton.2 hfraction.plain⟩⟩

theorem plain_field {name assign : LosslessToken} (hname : name.Neutral) (hassign : assign.Is ":=" = true) :
    ∀ token ∈ [name, assign], Plain token :=
  List.forall_mem_cons.2 ⟨hname.plain, List.forall_mem_singleton.2 (plain_of_is hassign (by decide))⟩

theorem LosslessToken.Neutral.plain_singleton (h : token.Neutral) : ∀ other ∈ [token], Plain other :=
  List.forall_mem_singleton.2 h.plain

/-- **A term in brackets is passed.** -/
theorem Renders.accessesEnd_inside (h : Renders inside t tokens) (depth : ℕ) (rest : List LosslessToken) :
    accessesEnd (depth + 1) (tokens ++ rest) = accessesEnd (depth + 1) rest := by
  induction h generalizing depth rest with
  | name _ hneutral => exact accessesEnd_plain hneutral.plain_singleton depth rest
  | literal hneutral => exact accessesEnd_plain hneutral.plain_singleton depth rest
  | member _ _ hdot _ hneutral ih =>
    rw [List.append_assoc, ih, accessesEnd_plain (plain_part hdot (List.forall_mem_singleton.2 hneutral))]
  | element _ _ hopen _ hclose ih ih' =>
    rw [List.append_assoc, ih, List.cons_append, List.append_assoc, accessesEnd_opening hopen, ih',
      List.singleton_append, accessesEnd_closing hclose]
  | deref _ _ hcaret ih =>
    rw [List.append_assoc, ih, List.singleton_append,
      Intake.accessesEnd_inside (is_ne hcaret (by decide)) (is_ne hcaret (by decide))]
  | part _ _ hdot _ hneutral ih => rw [List.append_assoc, ih, accessesEnd_plain (plain_part hdot hneutral)]
  | address _ hneutral hdigits => exact accessesEnd_plain (plain_address hneutral hdigits) depth rest
  | decimal _ hwhole hdot _ hfraction => exact accessesEnd_plain (plain_decimal hwhole hdot hfraction) depth rest
  | unary hneutral _ _ ih =>
    rw [List.cons_append, Intake.accessesEnd_inside (hneutral.is (by decide)) (hneutral.is (by decide)), ih]
  | binary _ hneutral _ ih ih' =>
    rw [List.append_assoc, ih, List.cons_append,
      Intake.accessesEnd_inside (hneutral.is (by decide)) (hneutral.is (by decide)), ih']
  | paren hopen _ _ hclose ih =>
    rw [List.cons_append, Intake.accessesEnd_inside (is_ne hopen (by decide)) (is_ne hopen (by decide)),
      List.append_assoc, ih, List.singleton_append,
      Intake.accessesEnd_inside (is_ne hclose (by decide)) (is_ne hclose (by decide))]
  | array hopen _ _ hclose ih =>
    rw [List.cons_append, accessesEnd_opening hopen, List.append_assoc, ih, List.singleton_append,
      accessesEnd_closing hclose]
  | @field _ name assign tokens _ hneutral hassign _ ih =>
    exact (accessesEnd_plain (plain_field hneutral hassign) depth (tokens ++ rest)).trans (ih depth rest)

/-- The accesses of a reference are read. -/
theorem Renders.reference (h : Renders inside t tokens) (hreference : t.isReference = true) :
    ∃ first more, tokens = first :: more ∧ ∀ rest, accessesEnd 0 (more ++ rest) = accessesEnd 0 rest := by
  induction h with
  | name _ _ => exact ⟨_, [], rfl, fun _ => rfl⟩
  | member _ ht hdot hword _ ih =>
    obtain ⟨first, more, rfl, hread⟩ := ih ht
    refine ⟨first, _, List.cons_append, fun rest => ?_⟩
    rw [List.append_assoc, hread, List.cons_append, List.singleton_append, accessesEnd_member hdot hword]
  | element _ ht hopen hindex hclose ih _ =>
    obtain ⟨first, more, rfl, hread⟩ := ih ht
    refine ⟨first, _, List.cons_append, fun rest => ?_⟩
    rw [List.append_assoc, hread, List.cons_append, accessesEnd_opening hopen, List.append_assoc,
      hindex.accessesEnd_inside 0, List.singleton_append, accessesEnd_closing hclose]
  | deref _ ht hcaret ih =>
    obtain ⟨first, more, rfl, hread⟩ := ih ht
    refine ⟨first, _, List.cons_append, fun rest => ?_⟩
    rw [List.append_assoc, hread, List.singleton_append, accessesEnd_deref hcaret]
  | part _ _ _ _ _ _ => cases hreference
  | address _ _ _ => cases hreference
  | literal _ => cases hreference
  | decimal _ _ _ _ _ => cases hreference
  | unary _ _ _ _ => cases hreference
  | binary _ _ _ _ _ => cases hreference
  | paren _ _ _ _ _ => cases hreference
  | array _ _ _ _ _ => cases hreference
  | field _ _ _ _ _ => cases hreference

/-- Tokens that no access starts with: an operator, or a part of a variable. -/
def Stops (tokens : List LosslessToken) : Prop :=
  ∃ token rest, tokens = token :: rest ∧ token.Is ":=" = false ∧
    ∀ more, accessesEnd 0 (tokens ++ more) = some (tokens ++ more)

theorem accessesEnd_stops (hdot : token.Is "." = false) (hcaret : token.Is "^" = false)
    (hopen : token.Is "[" = false) : accessesEnd 0 (token :: rest) = some (token :: rest) := by
  rw [accessesEnd_zero hdot, hcaret, hopen]
  rfl

theorem LosslessToken.Neutral.stops (h : token.Neutral) : Stops (token :: rest) :=
  ⟨token, rest, rfl, h.is (by decide), fun _ => accessesEnd_stops (h.is (by decide)) (h.is (by decide))
    (h.is (by decide))⟩

theorem stops_part {first : LosslessToken} (hdot : token.Is "." = true) (hword : first.isWord = false) :
    Stops (token :: first :: rest) :=
  ⟨token, first :: rest, rfl, is_ne hdot (by decide), fun _ => accessesEnd_part hdot hword⟩

/-- A reference is read, up to what stops it. -/
theorem Renders.referenceEnd (h : Renders inside t tokens) (hreference : t.isReference = true)
    (hkind : tokens.head?.any (·.kind = .identifier) = true) (hrest : accessesEnd 0 rest = some rest) :
    referenceEnd (tokens ++ rest) = some (tokens, rest) := by
  obtain ⟨first, more, rfl, hread⟩ := h.reference hreference
  have hfirst : first.kind = .identifier := by simpa using hkind
  rw [List.cons_append, Intake.referenceEnd, if_pos hfirst, hread, hrest, Option.map_some]
  have hlength : (more ++ rest).length + 1 - rest.length = (first :: more).length := by
    simp only [List.length_append, List.length_cons]
    omega
  rw [hlength, ← List.cons_append, List.take_left]

theorem Renders.ne_nil (h : Renders inside t tokens) : tokens ≠ [] := by
  cases h <;> simp

theorem head?_append_of_ne_nil {left right : List LosslessToken} (h : left ≠ []) :
    (left ++ right).head? = left.head? := by
  cases left with
  | nil => exact absurd rfl h
  | cons token left => rfl

/-- A term that starts with an identifier starts with a reference, and goes on with what is no access. -/
theorem Renders.startsWithReference (h : Renders inside t tokens) (houtside : inside = false)
    (hkind : tokens.head?.any (·.kind = .identifier) = true) :
    ∃ t' reference more, tokens = reference ++ more ∧ Renders false t' reference ∧ t'.isReference = true ∧
      (more = [] ∨ Stops more) := by
  have hwhole {t : Term} {tokens : List LosslessToken} (h : Renders false t tokens) (hreference : t.isReference = true) :
      ∃ t' reference more, tokens = reference ++ more ∧ Renders false t' reference ∧ t'.isReference = true ∧
        (more = [] ∨ Stops more) :=
    ⟨t, tokens, [], (List.append_nil _).symm, h, hreference, .inl rfl⟩
  induction h with
  | name hword hneutral => exact hwhole (.name hword hneutral) rfl
  | member h ht hdot hname hneutral _ => exact hwhole (.member (houtside ▸ h) ht hdot hname hneutral) ht
  | element h ht hopen hindex hclose _ _ => exact hwhole (.element (houtside ▸ h) ht hopen hindex hclose) ht
  | deref h ht hcaret _ => exact hwhole (.deref (houtside ▸ h) ht hcaret) ht
  | part h ht hdot hword _ _ => exact ⟨_, _, _, rfl, houtside ▸ h, ht, .inr (stops_part hdot hword)⟩
  | address hfirst _ _ =>
    rw [List.head?_cons, Option.any_some, decide_eq_true_eq, hfirst] at hkind
    cases hkind
  | literal hneutral =>
    have hword : _ = TokenKind.identifier := of_decide_eq_true hkind
    refine hwhole (.name ?_ hneutral) rfl
    rw [LosslessToken.isWord, hword]
    rfl
  | decimal hwhole _ _ _ _ =>
    rw [List.head?_cons, Option.any_some, decide_eq_true_eq, hwhole] at hkind
    cases hkind
  | unary _ hop _ _ => exact absurd (of_decide_eq_true hkind) hop
  | paren _ hsymbol _ _ _ =>
    rw [List.head?_cons, Option.any_some, decide_eq_true_eq, hsymbol] at hkind
    cases hkind
  | array _ hsymbol _ _ _ =>
    rw [List.head?_cons, Option.any_some, decide_eq_true_eq, hsymbol] at hkind
    cases hkind
  | field _ _ _ _ _ => cases houtside
  | binary hleft hneutral _ ih _ =>
    rw [head?_append_of_ne_nil hleft.ne_nil] at hkind
    obtain ⟨t', reference, more, rfl, hreference, ht', hmore⟩ := ih houtside hkind
    refine ⟨t', reference, _, List.append_assoc _ _ _, hreference, ht', .inr ?_⟩
    rcases hmore with rfl | ⟨token, rest, rfl, hassign, hread⟩
    · exact hneutral.stops
    · exact ⟨token, _, rfl, hassign, fun more => by rw [List.append_assoc]; exact hread _⟩

/-- No target follows the last one. -/
theorem chainTargets_expression (h : Renders false t tokens) {semicolon : LosslessToken}
    (hsemicolon : semicolon.Is ";" = true) (fuel : ℕ) :
    chainTargets fuel (tokens ++ semicolon :: rest) = ([], tokens ++ semicolon :: rest) := by
  have hnext {reference : List LosslessToken} {next : LosslessToken} {after : List LosslessToken}
      (hnext : next.Is ":=" = false)
      (hend : Intake.referenceEnd (tokens ++ semicolon :: rest) = some (reference, next :: after)) :
      chainTargets fuel (tokens ++ semicolon :: rest) = ([], tokens ++ semicolon :: rest) := by
    cases fuel with
    | zero => rfl
    | succ fuel =>
      rw [chainTargets, hend]
      simp only [hnext, Bool.false_eq_true, if_false]
  by_cases hkind : tokens.head?.any (·.kind = .identifier) = true
  · obtain ⟨t', reference, more, rfl, hreference, ht', hmore⟩ := h.startsWithReference rfl hkind
    rw [head?_append_of_ne_nil hreference.ne_nil] at hkind
    rcases hmore with rfl | ⟨token, after, rfl, hassign, hread⟩
    · rw [List.append_nil] at hnext ⊢
      refine hnext (is_ne hsemicolon (by decide)) (hreference.referenceEnd ht' hkind ?_)
      exact accessesEnd_stops (is_ne hsemicolon (by decide)) (is_ne hsemicolon (by decide))
        (is_ne hsemicolon (by decide))
    · have hend : Intake.referenceEnd (reference ++ token :: after ++ semicolon :: rest) =
          some (reference, token :: (after ++ semicolon :: rest)) := by
        rw [List.append_assoc]
        exact hreference.referenceEnd ht' hkind (hread (semicolon :: rest))
      exact hnext hassign hend
  · obtain ⟨first, more, rfl⟩ := List.exists_cons_of_ne_nil h.ne_nil
    have hnot : ¬first.kind = .identifier := by simpa using hkind
    cases fuel with
    | zero => rfl
    | succ fuel =>
      rw [chainTargets, List.cons_append, Intake.referenceEnd, if_neg hnot]

/-! ### Expressions -/

/-- A token that is no semicolon is passed. -/
theorem chainExpression_cons (h : token.Is ";" = false) (depth : ℤ) : chainExpression depth (token :: rest) =
    (chainExpression (depth + bracketDepth token) rest).map fun read => (token :: read.1, read.2) := by
  have hdepth : depth + bracketDepth token = if (token.Is "(" || token.Is "[") = true then depth + 1
      else if (token.Is ")" || token.Is "]") = true then depth - 1 else depth := by
    unfold bracketDepth
    split
    · rfl
    split
    · omega
    · omega
  rw [chainExpression, if_neg (by simp [h]), hdepth]

theorem chainExpression_plain (h : ∀ token ∈ tokens, Plain token) (depth : ℤ) (rest : List LosslessToken) :
    chainExpression depth (tokens ++ rest) =
      (chainExpression depth rest).map fun read => (tokens ++ read.1, read.2) := by
  induction tokens with
  | nil => exact (congrFun Option.map_id (chainExpression depth rest)).symm
  | cons token tokens ih =>
    obtain ⟨htoken, htokens⟩ := List.forall_mem_cons.1 h
    rw [List.cons_append, chainExpression_cons (htoken ";" (by decide)), htoken.bracketDepth, add_zero, ih htokens,
      Option.map_map]
    rfl

/-- Brackets around tokens that are passed are passed. -/
theorem chainExpression_brackets {opening closing : LosslessToken}
    (hopen : opening.Is "(" = true ∨ opening.Is "[" = true) (hclose : closing.Is ")" = true ∨ closing.Is "]" = true)
    (h : ∀ depth rest, chainExpression depth (tokens ++ rest) =
      (chainExpression depth rest).map fun read => (tokens ++ read.1, read.2)) (depth : ℤ) :
    chainExpression depth (opening :: (tokens ++ closing :: rest)) =
      (chainExpression depth rest).map fun read => (opening :: (tokens ++ closing :: read.1), read.2) := by
  have hopening : opening.Is ";" = false := hopen.elim (is_ne · (by decide)) (is_ne · (by decide))
  have hclosing : closing.Is ";" = false := hclose.elim (is_ne · (by decide)) (is_ne · (by decide))
  rw [chainExpression_cons hopening, bracketDepth_opening hopen, h, chainExpression_cons hclosing,
    bracketDepth_closing hclose, add_neg_cancel_right, Option.map_map, Option.map_map]
  rfl

/-- **The expression is read up to what follows it.** -/
theorem Renders.chainExpression_append (h : Renders inside t tokens) (depth : ℤ) (rest : List LosslessToken) :
    chainExpression depth (tokens ++ rest) =
      (chainExpression depth rest).map fun read => (tokens ++ read.1, read.2) := by
  induction h generalizing depth rest with
  | name _ hneutral => exact chainExpression_plain hneutral.plain_singleton depth rest
  | literal hneutral => exact chainExpression_plain hneutral.plain_singleton depth rest
  | member _ _ hdot _ hneutral ih =>
    rw [List.append_assoc, ih, chainExpression_plain (plain_part hdot (List.forall_mem_singleton.2 hneutral)),
      Option.map_map]
    simp [Function.comp_def]
  | element _ _ hopen _ hclose ih ih' =>
    rw [List.append_assoc, ih, List.cons_append, List.append_assoc, List.singleton_append,
      chainExpression_brackets (.inr hopen) (.inr hclose) ih', Option.map_map]
    simp [Function.comp_def]
  | deref _ _ hcaret ih =>
    rw [List.append_assoc, ih,
      chainExpression_plain (List.forall_mem_singleton.2 (plain_of_is hcaret (by decide))), Option.map_map]
    simp [Function.comp_def]
  | part _ _ hdot _ hneutral ih =>
    rw [List.append_assoc, ih, chainExpression_plain (plain_part hdot hneutral), Option.map_map]
    simp [Function.comp_def]
  | address _ hneutral hdigits => exact chainExpression_plain (plain_address hneutral hdigits) depth rest
  | decimal _ hwhole hdot _ hfraction => exact chainExpression_plain (plain_decimal hwhole hdot hfraction) depth rest
  | @unary _ _ tokens op hneutral _ _ ih =>
    have hop := chainExpression_plain hneutral.plain_singleton depth (tokens ++ rest)
    rw [ih, Option.map_map] at hop
    exact hop
  | @binary _ _ left op _ right _ hneutral _ ih ih' =>
    have hop := chainExpression_plain hneutral.plain_singleton depth (right ++ rest)
    rw [ih', Option.map_map] at hop
    rw [List.append_assoc, ih]
    refine (congrArg (Option.map _) hop).trans ?_
    rw [Option.map_map]
    simp [Function.comp_def]
  | paren hopen _ _ hclose ih =>
    rw [List.cons_append, List.append_assoc, List.singleton_append,
      chainExpression_brackets (.inl hopen) (.inl hclose) ih]
    simp
  | array hopen _ _ hclose ih =>
    rw [List.cons_append, List.append_assoc, List.singleton_append,
      chainExpression_brackets (.inr hopen) (.inr hclose) ih]
    simp
  | @field _ name assign tokens _ hneutral hassign _ ih =>
    have hfield := chainExpression_plain (plain_field hneutral hassign) depth (tokens ++ rest)
    rw [ih, Option.map_map] at hfield
    exact hfield

/-! ### Chains -/

/-- The targets of a chain are read. -/
theorem RendersTargets.chainTargets {ts : List Term} {targets : List (List LosslessToken)}
    (h : RendersTargets ts targets tokens) {fuel : ℕ} (hfuel : tokens.length ≤ fuel)
    (hrest : ∀ fuel, Intake.chainTargets fuel rest = ([], rest)) :
    Intake.chainTargets fuel (tokens ++ rest) = (targets, rest) := by
  induction h generalizing fuel with
  | nil => exact hrest fuel
  | @cons _ _ _ _ assign tokens htarget hreference hkind hassign _ ih =>
    cases fuel with
    | zero => simp at hfuel
    | succ fuel =>
      rw [List.length_append, List.length_cons] at hfuel
      have hstop : accessesEnd 0 (assign :: (tokens ++ rest)) = some (assign :: (tokens ++ rest)) :=
        accessesEnd_stops (is_ne hassign (by decide)) (is_ne hassign (by decide)) (is_ne hassign (by decide))
      rw [List.append_assoc, List.cons_append, Intake.chainTargets, htarget.referenceEnd hreference hkind hstop]
      simp only [hassign, if_true]
      rw [ih (by omega)]

theorem RendersTargets.length_eq {ts : List Term} {targets : List (List LosslessToken)}
    (h : RendersTargets ts targets tokens) : targets.length = ts.length := by
  induction h with
  | nil => rfl
  | cons _ _ _ _ _ ih => rw [List.length_cons, List.length_cons, ih]

/-- **A chain is read as it is**, with its targets and its expression. -/
theorem chainedAssignment_renders {ts : List Term} {targets : List (List LosslessToken)}
    {expression : List LosslessToken} {semicolon : LosslessToken} (htargets : RendersTargets ts targets tokens)
    (htwo : 2 ≤ ts.length) (hexpression : Renders false t expression) (hsemicolon : semicolon.Is ";" = true) :
    chainedAssignment (tokens ++ (expression ++ semicolon :: rest)) =
      some { targets, expression, rest := semicolon :: rest } := by
  have hread : Intake.chainTargets (tokens ++ (expression ++ semicolon :: rest)).length
      (tokens ++ (expression ++ semicolon :: rest)) = (targets, expression ++ semicolon :: rest) :=
    htargets.chainTargets (by rw [List.length_append]; omega) (chainTargets_expression hexpression hsemicolon)
  have hend : chainExpression 0 (expression ++ semicolon :: rest) = some (expression, semicolon :: rest) := by
    rw [hexpression.chainExpression_append, chainExpression, if_pos ⟨rfl, hsemicolon⟩, Option.map_some,
      List.append_nil]
  rw [chainedAssignment, hread]
  simp [htargets.length_eq, htwo, hend, hexpression.ne_nil]

end Reading

end SemantiST.Intake
