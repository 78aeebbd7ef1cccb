import Mathlib.Data.Char
import Mathlib.Data.List.Lex
import SemantiST.Intake.Tokens
import SemantiST.Lib.Dict
import SemantiST.Lib.Reach
import SemantiST.Lib.Sort

/-!
# Undefined symbols

What `_link` (`build.py`) attributes to the units of a library after a failed link: the undefined symbols
that the reference graph of the module, read line by line, leads to from the functions of a unit on.
-/

namespace SemantiST.Intake.Build

open Lib

/-! ## Names in a module -/

section Patterns

-- the characters of `\w`
variable (word : Char → Bool)

/-- The rest of a quoted name, and what comes behind it. -/
def quotedName : Text → Option (Text × Text)
  | [] => none
  | '\\' :: c :: rest => (quotedName rest).map fun read => ('\\' :: c :: read.1, read.2)
  | c :: rest =>
    if c = '\"' then some ([], rest)
    else if c = '\\' then none
    else (quotedName rest).map fun read => (c :: read.1, read.2)

def bareName (s : Text) : Option (Text × Text) :=
  let name := s.takeWhile fun c => word c || c = '.' || c = '$'
  if name = [] then none else some (name, s.drop name.length)

/-- The name at the start of a text that follows `@`. -/
def globalName (s : Text) : Option (Text × Text) :=
  match s with
  | '\"' :: rest => (quotedName rest).or (bareName word s)
  | _ => bareName word s

/-- The names behind `@` in a text, some characters of which are read already. -/
def refsFrom : ℕ → Text → List Text
  | _, [] => []
  | skip + 1, _ :: rest => refsFrom skip rest
  | 0, c :: rest =>
    if c = '@' then
      match globalName word rest with
      | some (name, after) => name :: refsFrom (rest.length - after.length) rest
      | none => refsFrom 0 rest
    else refsFrom 0 rest

/-- `_GLOBAL_REF.findall` -/
def globalRefs (line : Text) : List Text := refsFrom word 0 line

/-- `_DEFINE.match` -/
def definedName (line : Text) : Option Text :=
  if startsWith line "define " then
    match (line.drop 7).dropWhile (· ≠ '@') with
    | _ :: rest =>
      match globalName word rest with
      | some (name, '(' :: _) => some name
      | _ => none
    | [] => none
  else none

/-! ## The reference graph -/

/-- The names that each function refers to. -/
abbrev Graph := List (Text × List Text)

namespace Graph

def refs (graph : Graph) (name : Text) : List Text := (value graph name).getD []

def names (graph : Graph) : List Text := graph.map Prod.fst

end Graph

structure Reading where
  graph : Graph := []
  current : Option Text := none

def closesBody (line : Text) : Bool := line.head? = some '\x7d'

def readLine (reading : Reading) (line : Text) : Reading :=
  match definedName word line with
  | some name => { graph := put reading.graph name [], current := some name }
  | none =>
    match reading.current with
    | none => reading
    | some name =>
      if closesBody line then { reading with current := none }
      else { reading with graph := put reading.graph name (reading.graph.refs name ++ globalRefs word line) }

/-- `reference_graph` -/
def referenceGraph (irText : Text) : Graph := ((splitlines irText).foldl (readLine word) {}).graph

end Patterns

/-! ## Attribution -/

inductive IrStatus where
  | generated | failed | notRun
deriving DecidableEq

inductive LinkStatus where
  | passed | undefinedSymbols | objectFailed | linkFailed | notRun
deriving DecidableEq

structure UnitResult where
  name : Text
  ir : IrStatus
  link : LinkStatus := .notRun
  undefinedSymbols : List Text := []
deriving DecidableEq

section Attribution

variable (u : UnicodeData) (word : Char → Bool)

/-- `closure` -/
def closure (graph : Graph) (symbol : Text) : List Text := Stacked.reachFrom graph.refs graph.names [symbol]

/-- A defined symbol is one of the roots of a unit. -/
def isRoot (name symbol : Text) : Bool :=
  u.upperText symbol = u.upperText name || (u.upperText name ++ ".".toList).isPrefixOf (u.upperText symbol) ||
    u.upperText symbol = "__INIT_".toList ++ u.upperText name

def rootsOf (graph : Graph) (name : Text) : List Text := graph.names.filter (isRoot u name)

/-- What a unit is given after a failed link. -/
def attributeUnit (irText : Text) (undefined : List Text) (unit : UnitResult) : UnitResult :=
  if unit.ir = .generated then
    let graph := referenceGraph word irText
    let missing :=
      sortDedup (((rootsOf u graph unit.name).flatMap (closure graph)).filter (· ∈ undefined))
    { unit with undefinedSymbols := missing, link := if missing = [] then .linkFailed else .undefinedSymbols }
  else unit

end Attribution

/-! ## What a unit refers to -/

section Reference

variable (u : UnicodeData) (word : Char → Bool) (irText : Text)

/-- The lines outside of function bodies. -/
def outsideLines : Bool → List Text → List Text
  | _, [] => []
  | inside, line :: lines =>
    if (definedName word line).isSome then outsideLines true lines
    else if inside then outsideLines (!closesBody line) lines
    else line :: outsideLines false lines

/-- A global variable, and the names in its initialiser. -/
def initialiser (line : Text) : Option (Text × List Text) :=
  match line with
  | '@' :: rest => do
    let (name, after) ← globalName word rest
    if startsWith after " =" then some (name, globalRefs word after) else none
  | _ => none

def initialisers : List (Text × List Text) := (outsideLines word false (splitlines irText)).filterMap (initialiser word)

/-- A symbol refers to another one in its body. -/
def RefersInBody (a b : Text) : Prop := b ∈ (referenceGraph word irText).refs a

/-- A symbol refers to another one in its body or its initialiser. -/
def Refers (a b : Text) : Prop :=
  RefersInBody word irText a b ∨ ∃ refs, (a, refs) ∈ initialisers word irText ∧ b ∈ refs

/-- A symbol leads to another one. -/
def Leads : Text → Text → Prop := Relation.ReflTransGen (Refers word irText)

/-- A function is the constructor of a unit. -/
def IsConstructor (name symbol : Text) : Prop := u.upperText symbol = u.upperText name ++ "__CTOR".toList

/-- **A unit refers to a symbol**, from one of its functions on. -/
def UnitRefers (name symbol : Text) : Prop :=
  ∃ function ∈ (referenceGraph word irText).names, (isRoot u name function = true ∨ IsConstructor u name function) ∧
    Leads word irText function symbol

/-- A root of a unit leads to a symbol through function bodies alone. -/
def InBodies (name symbol : Text) : Prop :=
  ∃ function ∈ (referenceGraph word irText).names, isRoot u name function = true ∧
    Relation.ReflTransGen (RefersInBody word irText) function symbol

/-- No undefined symbol is met only behind the constructor or behind an initialiser. -/
structure MetInBodies (undefined : List Text) (name : Text) : Prop where
  constructors : ∀ function ∈ (referenceGraph word irText).names, IsConstructor u name function →
    ∀ symbol ∈ undefined, Leads word irText function symbol → InBodies u word irText name symbol
  initialisers : ∀ entry ∈ initialisers word irText, InBodies u word irText name entry.1 → ∀ start ∈ entry.2,
    ∀ symbol ∈ undefined, Leads word irText start symbol → InBodies u word irText name symbol

end Reference

/-! ## The search -/

section Search

variable {u : UnicodeData} {word : Char → Bool} {irText : Text} {undefined : List Text} {name symbol : Text}

theorem Graph.refs_eq_nil {graph : Graph} (h : symbol ∉ graph.names) : graph.refs symbol = [] := by
  rw [Graph.refs, value_eq_none_iff.2 h]
  rfl

theorem mem_closure {graph : Graph} {start : Text} :
    symbol ∈ closure graph start ↔ Relation.ReflTransGen (fun a b => b ∈ graph.refs a) start symbol := by
  rw [closure, Stacked.mem_reachFrom fun a => Graph.refs_eq_nil]
  constructor
  · rintro ⟨a, ha, hpath⟩
    rwa [List.mem_singleton.1 ha] at hpath
  · exact fun hpath => ⟨start, List.mem_singleton_self start, hpath⟩

/-- **A unit is given the undefined symbols that its roots lead to through bodies.** -/
theorem mem_attributeUnit {unit : UnitResult} (hgenerated : unit.ir = .generated) :
    symbol ∈ (attributeUnit u word irText undefined unit).undefinedSymbols ↔
      symbol ∈ undefined ∧ InBodies u word irText unit.name symbol := by
  rw [attributeUnit, if_pos hgenerated]
  simp only [mem_sortDedup, List.mem_filter, decide_eq_true_eq, List.mem_flatMap, rootsOf, mem_closure, InBodies]
  constructor
  · rintro ⟨⟨function, ⟨hmem, hroot⟩, hpath⟩, hundefined⟩
    exact ⟨hundefined, function, hmem, hroot, hpath⟩
  · rintro ⟨hundefined, function, hmem, hroot, hpath⟩
    exact ⟨⟨function, ⟨hmem, hroot⟩, hpath⟩, hundefined⟩

theorem InBodies.unitRefers (h : InBodies u word irText name symbol) : UnitRefers u word irText name symbol := by
  obtain ⟨function, hmem, hroot, hpath⟩ := h
  exact ⟨function, hmem, .inl hroot, Relation.ReflTransGen.mono (fun _ _ => .inl) _ _ hpath⟩

/-- What is behind a symbol that bodies lead to is met in bodies. -/
theorem MetInBodies.inBodies (h : MetInBodies u word irText undefined name) (hsymbol : symbol ∈ undefined)
    {start : Text} (hleads : Leads word irText start symbol) (hstart : InBodies u word irText name start) :
    InBodies u word irText name symbol := by
  induction hleads using Relation.ReflTransGen.head_induction_on with
  | refl => exact hstart
  | head hrefers hleads ih =>
    rcases hrefers with hbody | ⟨refs, hrefs, hmem⟩
    · obtain ⟨function, hfunction, hroot, hpath⟩ := hstart
      exact ih ⟨function, hfunction, hroot, hpath.tail hbody⟩
    · exact h.initialisers _ hrefs hstart _ hmem symbol hsymbol hleads

end Search

/-! ## A table -/

def asciiWord (c : Char) : Bool := c.isAlphanum || c = '_'

/-- A function block that refers to its table of methods. -/
def tableModule : Text :=
  ("@__vtable_FB = constant [1 x ptr] [ptr @FB_external]\n" ++
    "define void @FB(ptr %0) \x7b\n  store ptr @__vtable_FB, ptr %0\n  ret void\n\x7d\n" ++
    "declare void @FB_external()\n").toList

def tableUnit : UnitResult := { name := "FB".toList, ir := .generated }

end SemantiST.Intake.Build
