import SemantiST.Intake.Comments
import SemantiST.Lib.Dict
import SemantiST.Lib.Reach
import SemantiST.Lib.Sort

/-!
# Library qualifiers

`LibraryQualifier` (`normalize/rules/namespaces.py`) takes the qualifier of `Lib.Name` away when the
project defines `Name` once and in `Lib`.  One diagnostic rewrites every such place of every file; whether
`Lib` or `Name` is a variable there is not looked at.
-/

namespace SemantiST.Intake.Qualifiers

open Lib

/-! ## Namespaces -/

section Namespaces

-- the characters of `\w`
variable (word : Char → Bool)

/-- The rest of a file name behind the first `__` that no underscore follows. -/
def behindUnderscores : Text → Option Text
  | '_' :: '_' :: c :: rest => if c = '_' then behindUnderscores ('_' :: c :: rest) else some (c :: rest)
  | _ :: rest => behindUnderscores rest
  | [] => none

/-- The library that a file is named after: `xml_.+?__([^_].*)\.st`. -/
def libraryName (file : Text) : Option Text :=
  if startsWith file "xml_" then
    match behindUnderscores (file.drop 5) with
    | some name =>
      if ".st".toList.isSuffixOf name.tail then some (toAsciiUppercase (name.take (name.length - 3))) else none
    | none => none
  else none

/-- What the marker in front of a global variable list calls it. -/
def listName (unit : Unit) : Option Text :=
  match unit.marker with
  | some marker =>
    let last := (marker.reverse.takeWhile (· ≠ '/')).reverse
    let opening := "Global variable list: "
    let name := trim isSpace (if startsWith last opening then last.drop opening.length else last)
    match name with
    | c :: rest =>
      if unit.kind = "VAR_GLOBAL".toList ∧ (c.isAlpha ∨ c = '_') ∧ rest.all word then some (toAsciiUppercase name)
      else none
    | [] => none
  | none => none

/-- The length of `\S+\s*:` at the start of a text. -/
def addressLength (s : Text) : Option ℕ :=
  let run := s.takeWhile fun c => !isSpace c
  let blanks := (s.drop run.length).takeWhile isSpace
  if run ≠ [] ∧ (s.drop (run.length + blanks.length)).head? = some ':' then some (run.length + blanks.length + 1)
  else if ':' ∈ run.tail then some (run.length - (run.reverse.takeWhile (· ≠ ':')).length)
  else none

/-- The length of `\s*(?:AT\s+\S+\s*)?:` at the start of a text. -/
def colonLength (s : Text) : Option ℕ :=
  let blanks := s.takeWhile isSpace
  match s.drop blanks.length with
  | ':' :: _ => some (blanks.length + 1)
  | 'A' :: 'T' :: rest =>
    let gap := rest.takeWhile isSpace
    if gap = [] then none
    else (addressLength (rest.drop gap.length)).map (blanks.length + 2 + gap.length + ·)
  | _ => none

/-- The longest beginning of a word, of at most so many characters, that is declared, and the length of both. -/
def declaredWord (s : Text) : ℕ → Option (Text × ℕ)
  | 0 => none
  | n + 1 =>
    match colonLength (s.drop (n + 1)) with
    | some length => some (s.take (n + 1), n + 1 + length)
    | none => declaredWord s n

/-- `\s*([A-Za-z_]\w*)\s*(?:AT\s+\S+\s*)?:` at the start of a text: the name, and the length. -/
def declarationAt (s : Text) : Option (Text × ℕ) :=
  let blanks := s.takeWhile isSpace
  match s.drop blanks.length with
  | c :: rest =>
    if c.isAlpha ∨ c = '_' then
      (declaredWord (c :: rest) ((rest.takeWhile word).length + 1)).map fun read => (read.1, blanks.length + read.2)
    else none
  | [] => none

/-- The declarations that start a line of a text, some characters of which are read already. -/
def declarationsFrom : ℕ → Bool → Text → List Text
  | _, _, [] => []
  | skip + 1, _, c :: rest => declarationsFrom skip (c = '\n') rest
  | 0, false, c :: rest => declarationsFrom 0 (c = '\n') rest
  | 0, true, c :: rest =>
    match declarationAt word (c :: rest) with
    | some (name, length) => toAsciiUppercase name :: declarationsFrom (length - 1) (c = '\n') rest
    | none => declarationsFrom 0 (c = '\n') rest

/-- The names of a dictionary of them. -/
abbrev Namespaces := List (Text × List Text)

/-- The names that a file adds: those of its units to its library, those of its lists to the lists. -/
def addFile (namespaces : Namespaces) (file : Text × SourceIndex) : Namespaces :=
  let named := file.2.units.filterMap fun unit => if unit.name = [] then none else some (toAsciiUppercase unit.name)
  let start :=
    match libraryName file.1 with
    | some library => put namespaces library named
    | none => namespaces
  file.2.units.foldl (fun namespaces unit =>
    match listName word unit with
    | some list =>
      put namespaces list ((value namespaces list).getD [] ++
        declarationsFrom word 0 true (file.2.slice unit.start unit.stop))
    | none => namespaces) start

/-- `project_namespaces` -/
def projectNamespaces (files : List (Text × SourceIndex)) : Namespaces := files.foldl (addFile word) []

end Namespaces

/-! ## The rule -/

/-- The texts of a project, and what its configuration says of names. -/
structure Project where
  files : List (Text × SourceIndex)
  nodup : (files.map Prod.fst).Nodup
  namespaces : Namespaces
  standardNamespaces : List Text
  standardNames : List Text

/-- The tokens of a place `Lib.Name`. -/
structure Qualified where
  qualifier : LosslessToken
  name : LosslessToken

/-- The triples of a word, a dot and a word; `dotted` says that a dot stands before the first token. -/
def qualifiedFrom : Bool → List LosslessToken → List Qualified
  | dotted, qualifier :: dot :: name :: rest =>
    let others := qualifiedFrom (qualifier.Is ".") (dot :: name :: rest)
    if !dotted && dot.Is "." then { qualifier, name } :: others else others
  | _, _ => []

/-- How often a project defines a name: once for each unit, and once for all lists of variables. -/
def definedCount (project : Project) (name : Text) : ℕ :=
  let units := project.files.flatMap fun file => file.2.units.filter fun unit => toAsciiUppercase unit.name = name
  if units ≠ [] then units.length
  else if project.namespaces.any fun entry => entry.2.contains name then 1
  else 0

/-- The qualifier selects the one definition of the name, or one of the standard library. -/
def selects (project : Project) (qualifier name : Text) : Bool :=
  definedCount project qualifier = 0 &&
    ((((value project.namespaces qualifier).getD []).contains name && definedCount project name = 1) ||
      (project.standardNamespaces.contains qualifier && project.standardNames.contains name &&
        definedCount project name = 0))

structure QualifierProposal where
  qualifier : Text
  name : Text
  edits : List FileEdit
deriving DecidableEq

def byName (first second : Text × SourceIndex) : Ordering := compareOfLessAndEq first.1 second.1

/-- The edits that take a qualifier away wherever it stands before a name. -/
def qualifierEdits (project : Project) (qualifier name : Text) : List FileEdit :=
  (sortBy byName project.files).flatMap fun file =>
    ((qualifiedFrom false file.2.significant).filter fun place =>
      place.qualifier.upper = qualifier ∧ place.name.upper = name).map fun place =>
        { file := file.1, start := place.qualifier.start, stop := place.name.start }

/-- The places `Lib.Name` within six tokens of the diagnosed one. -/
def candidates (index : SourceIndex) (offset : ℕ) : List Qualified :=
  let i := index.significantIndex offset
  let tokens := index.significant
  let before := i - 6
  let dotted := before ≠ 0 && (tokens[before - 1]?.any (·.Is "."))
  (qualifiedFrom dotted ((tokens.drop before).take (i + 6 - before + 2))).filter fun place =>
    place.qualifier.isWord && place.name.isWord

/-- The first place near the diagnosed token whose qualifier selects its name. -/
def diagnosed (project : Project) (file : Text) (offset : ℕ) : Option Qualified := do
  let index ← value project.files file
  (candidates index offset).find? fun place => selects project place.qualifier.upper place.name.upper

/-- `LibraryQualifier.propose` -/
def propose (project : Project) (file : Text) (offset : ℕ) : Option QualifierProposal := do
  let place ← diagnosed project file offset
  return {
    qualifier := place.qualifier.upper
    name := place.name.upper
    edits := qualifierEdits project place.qualifier.upper place.name.upper }

/-! ## Declarations -/

/-- The words that open a block of variables. -/
def variableBlocks : List String := "VAR_GLOBAL" :: varBlocks

/-- The words that may stand between such a word and the variables. -/
def blockModifiers : List String := ["CONSTANT", "RETAIN", "NON_RETAIN", "PERSISTENT"] ++ modifiers

/-- Where a scan of variables stands. -/
inductive VariableScan where
  | outside | names | address | type

/-- The variables that some tokens declare. -/
def variablesFrom : VariableScan → List LosslessToken → List Text
  | _, [] => []
  | .outside, token :: rest => variablesFrom (if Among token.word variableBlocks then .names else .outside) rest
  | .names, token :: rest =>
    if token.Is ":" then variablesFrom .type rest
    else if token.word = "END_VAR".toList then variablesFrom .outside rest
    else if token.upper = "AT".toList then variablesFrom .address rest
    else if token.isWord ∧ ¬Among token.upper blockModifiers then token.upper :: variablesFrom .names rest
    else variablesFrom .names rest
  | .address, token :: rest => variablesFrom (if token.Is ":" then .type else .address) rest
  | .type, token :: rest =>
    variablesFrom (if token.Is ";" then .names else if token.word = "END_VAR".toList then .outside else .type) rest

/-- Where a scan of types stands, and how deep in structures. -/
inductive TypeScan where
  | names | colon | enumerators | enumerator | fields (depth : ℕ) | type

/-- The types and enumerators that some tokens declare. -/
def typesFrom : TypeScan → List LosslessToken → List Text
  | _, [] => []
  | .names, token :: rest =>
    if token.Is ":" then typesFrom .colon rest
    else if token.isWord ∧ ¬Among token.word ("END_TYPE" :: modifiers) then token.upper :: typesFrom .names rest
    else typesFrom .names rest
  | .colon, token :: rest =>
    typesFrom (if token.Is "(" then .enumerators
      else if Among token.upper ["STRUCT", "UNION"] then .fields 0
      else .type) rest
  | .enumerators, token :: rest =>
    if token.isWord then token.upper :: typesFrom .enumerator rest else typesFrom .enumerators rest
  | .enumerator, token :: rest =>
    typesFrom (if token.Is "," then .enumerators else if token.Is ")" then .type else .enumerator) rest
  | .fields depth, token :: rest =>
    typesFrom (if Among token.upper ["STRUCT", "UNION"] then .fields (depth + 1)
      else if Among token.word ["END_STRUCT", "END_UNION"] then (if depth = 0 then .names else .fields (depth - 1))
      else .fields depth) rest
  | .type, token :: rest => typesFrom (if token.Is ";" then .names else .type) rest

/-- The tokens of a part of a text. -/
def tokensIn (index : SourceIndex) (start stop : ℕ) : List LosslessToken :=
  index.significant.filter fun token => start ≤ token.start ∧ token.stop ≤ stop

/-- The names that a unit defines for the whole project. -/
def defines (index : SourceIndex) (unit : Unit) : List Text :=
  if unit.kind = "VAR_GLOBAL".toList then variablesFrom .outside (tokensIn index unit.start unit.stop)
  else if unit.kind = "TYPE".toList then typesFrom .names (tokensIn index unit.start unit.stop).tail
  else if Among unit.kind ["FUNCTION", "FUNCTION_BLOCK", "PROGRAM", "CLASS", "INTERFACE", "DATA_BLOCK",
      "ORGANIZATION_BLOCK", "CONFIGURATION"] then [toAsciiUppercase unit.name]
  else []

/-- A definition: the unit that makes it. -/
structure Definition where
  file : Text
  start : ℕ
deriving DecidableEq

/-- The definitions of a name in the units that satisfy a condition. -/
def definitionsWhere (project : Project) (p : Text → Unit → Bool) (name : Text) : List Definition :=
  project.files.flatMap fun file =>
    (file.2.units.filter fun unit => p file.1 unit && (defines file.2 unit).contains name).map fun unit =>
      { file := file.1, start := unit.start }

def definitions (project : Project) (name : Text) : List Definition := definitionsWhere project (fun _ _ => true) name

/-! ## Scopes -/

/-- The name behind the last dot. -/
def lastPart (name : Text) : Text := (name.reverse.takeWhile (· ≠ '.')).reverse

/-- The variables and members of a unit, without the variables of its members. -/
def ownNames (index : SourceIndex) (unit : Unit) : List Text :=
  let outside := fun token : LosslessToken =>
    unit.members.all fun member => token.start < member.start ∨ member.stop ≤ token.start
  variablesFrom .outside ((tokensIn index unit.start unit.stop).filter outside) ++
    unit.members.map fun member => toAsciiUppercase (lastPart member.name)

/-- The variables of the members that contain an offset. -/
def memberNames (index : SourceIndex) (unit : Unit) (offset : ℕ) : List Text :=
  (unit.members.filter fun member => member.start ≤ offset ∧ offset < member.stop).flatMap fun member =>
    variablesFrom .outside (tokensIn index member.start member.stop)

/-- The units whose names a unit sees: what it extends, and the block that its actions belong to. -/
def parents (index : SourceIndex) (unit : Unit) : List Text :=
  if Among unit.kind ("ACTIONS" :: memberKinds) then [toAsciiUppercase (unit.name.takeWhile (· ≠ '.'))]
  else
    let header := (tokensIn index unit.start unit.stop).takeWhile fun token => !Among token.word variableBlocks
    match header.dropWhile fun token => token.upper ≠ "EXTENDS".toList with
    | _ :: rest => ((dottedWords rest).1.getLast?.map toAsciiUppercase).toList
    | [] => []

/-- The units of a name. -/
def unitsNamed (project : Project) (name : Text) : List (SourceIndex × Unit) :=
  project.files.flatMap fun file =>
    (file.2.units.filter fun unit => toAsciiUppercase unit.name = name).map fun unit => (file.2, unit)

def ancestors (project : Project) (name : Text) : List Text :=
  (unitsNamed project name).flatMap fun unit => parents unit.1 unit.2

def unitNames (project : Project) : List Text :=
  project.files.flatMap fun file => file.2.units.map fun unit => toAsciiUppercase unit.name

/-- The blocks that a unit has its names from, beside its own. -/
def inherited (project : Project) (index : SourceIndex) (unit : Unit) : List (SourceIndex × Unit) :=
  (Stacked.reachFrom (ancestors project) (unitNames project) (parents index unit)).flatMap (unitsNamed project)

/-- The variables, parameters, instances and members that are visible at an offset of a file. -/
def scopeNames (project : Project) (file : Text) (offset : ℕ) : List Text :=
  match value project.files file with
  | some index =>
    match index.unitAt offset with
    | some unit =>
      memberNames index unit offset ++ (ownNames index unit ++
        (inherited project index unit).flatMap fun parent => ownNames parent.1 parent.2)
    | none => []
  | none => []

/-- A name is visible at an offset of a file: as a variable of the member there, or a name of its unit or
of a block that the unit extends, directly or not. -/
inductive Visible (project : Project) (file : Text) (offset : ℕ) (name : Text) : Prop where
  | inMember {index : SourceIndex} {unit : Unit} (hfile : value project.files file = some index)
      (hunit : index.unitAt offset = some unit) (hname : name ∈ memberNames index unit offset)
  | own {index : SourceIndex} {unit : Unit} (hfile : value project.files file = some index)
      (hunit : index.unitAt offset = some unit) (hname : name ∈ ownNames index unit)
  | inherited {index : SourceIndex} {unit : Unit} {ancestor : Text} {parent : SourceIndex × Unit}
      (hfile : value project.files file = some index) (hunit : index.unitAt offset = some unit)
      (hancestor : Stacked.Reached (ancestors project) (parents index unit) ancestor)
      (hparent : parent ∈ unitsNamed project ancestor) (hname : name ∈ ownNames parent.1 parent.2)

section Scopes

variable {project : Project} {file name : Text} {offset : ℕ} {index : SourceIndex} {unit : Unit}

theorem ancestors_eq_nil (h : name ∉ unitNames project) : ancestors project name = [] := by
  have hnone : unitsNamed project name = [] := by
    rw [unitsNamed, List.flatMap_eq_nil_iff]
    intro file hfile
    rw [List.map_eq_nil_iff, List.filter_eq_nil_iff]
    intro unit hunit hname
    rw [decide_eq_true_eq] at hname
    exact h (List.mem_flatMap.2 ⟨file, hfile, List.mem_map.2 ⟨unit, hunit, hname⟩⟩)
  rw [ancestors, hnone, List.flatMap_nil]

theorem mem_inherited {parent : SourceIndex × Unit} : parent ∈ inherited project index unit ↔
    ∃ ancestor, Stacked.Reached (ancestors project) (parents index unit) ancestor ∧
      parent ∈ unitsNamed project ancestor := by
  simp only [inherited, List.mem_flatMap, Stacked.mem_reachFrom fun _ => ancestors_eq_nil]

/-- **The names of a scope are those visible there.** -/
theorem mem_scopeNames : name ∈ scopeNames project file offset ↔ Visible project file offset name := by
  constructor
  · intro h
    unfold scopeNames at h
    split at h
    · rename_i index hfile
      split at h
      · rename_i unit hunit
        rcases List.mem_append.1 h with h | h
        · exact .inMember hfile hunit h
        rcases List.mem_append.1 h with h | h
        · exact .own hfile hunit h
        · obtain ⟨parent, hparent, hname⟩ := List.mem_flatMap.1 h
          obtain ⟨ancestor, hancestor, hparent⟩ := mem_inherited.1 hparent
          exact .inherited hfile hunit hancestor hparent hname
      · cases h
    · cases h
  · intro h
    cases h with
    | inMember hfile hunit hname =>
      simp only [scopeNames, hfile, hunit]
      exact List.mem_append_left _ hname
    | own hfile hunit hname =>
      simp only [scopeNames, hfile, hunit]
      exact List.mem_append_right _ (List.mem_append_left _ hname)
    | inherited hfile hunit hancestor hparent hname =>
      simp only [scopeNames, hfile, hunit]
      exact List.mem_append_right _ (List.mem_append_right _
        (List.mem_flatMap.2 ⟨_, mem_inherited.2 ⟨_, hancestor, hparent⟩, hname⟩))

instance : Decidable (Visible project file offset name) := decidable_of_iff _ mem_scopeNames

end Scopes

/-! ## Meanings -/

/-- What a name, with or without a qualifier, stands for. -/
inductive Meaning where
  | ofScope
  | memberOf
  | defined (definitions : List Definition)
  | standard
  | unresolved
deriving DecidableEq

/-- It is one definition, of the project or of the standard library. -/
inductive Meaning.Unique : Meaning → Prop where
  | defined (definition : Definition) : Unique (.defined [definition])
  | standard : Unique .standard

section Resolution

variable (word : Char → Bool) (project : Project)

/-- The definitions of a name in a library or a list of global variables. -/
def definitionsIn (qualifier name : Text) : List Definition :=
  definitionsWhere project
    (fun file unit => libraryName file = some qualifier ∨ listName word unit = some qualifier) name

/-- A standard namespace has the name. -/
def Standard (qualifier name : Text) : Prop :=
  qualifier ∈ project.standardNamespaces ∧ name ∈ project.standardNames

instance {qualifier name : Text} : Decidable (Standard project qualifier name) :=
  inferInstanceAs (Decidable (_ ∧ _))

/-- What `qualifier.name` stands for at a place. -/
def qualifiedMeaning (file : Text) (offset : ℕ) (qualifier name : Text) : Meaning :=
  if Visible project file offset qualifier ∨ definitions project qualifier ≠ [] then .memberOf
  else if definitionsIn word project qualifier name ≠ [] then .defined (definitionsIn word project qualifier name)
  else if Standard project qualifier name then .standard
  else .unresolved

/-- What `name` stands for at a place. -/
def plainMeaning (file : Text) (offset : ℕ) (name : Text) : Meaning :=
  if Visible project file offset name then .ofScope
  else if definitions project name ≠ [] then .defined (definitions project name)
  else if name ∈ project.standardNames then .standard
  else .unresolved

/-- A qualifier can be taken away at a place: it is no variable there, no variable captures the name, and
the name alone stands for the one definition that it stood for with the qualifier. -/
structure Preserved (file : Text) (offset : ℕ) (qualifier name : Text) : Prop where
  noMember : ¬Visible project file offset qualifier
  noCapture : ¬Visible project file offset name
  unique : (plainMeaning project file offset name).Unique
  same : qualifiedMeaning word project file offset qualifier name = plainMeaning project file offset name

/-- Neither word is a name of the scope, nothing is called like the qualifier, and all definitions of the
name are one that lies in the library or list; or there is none, and a standard namespace has it. -/
structure Separate (file : Text) (offset : ℕ) (qualifier name : Text) : Prop where
  noMember : ¬Visible project file offset qualifier
  noCapture : ¬Visible project file offset name
  undefined : definitions project qualifier = []
  atMostOnce : (definitions project name).length ≤ 1
  inside : definitions project name = definitionsIn word project qualifier name
  standard : definitions project name = [] → Standard project qualifier name

/-- The places `qualifier.name` of a file. -/
def uses (index : SourceIndex) (qualifier name : Text) : List Qualified :=
  (qualifiedFrom false index.significant).filter fun place =>
    place.qualifier.upper = qualifier ∧ place.name.upper = name

/-- No unit that has a place `qualifier.name` declares one of the two words: not among its own variables and
members, not in the member around the place, and not in a block that the unit has names from. -/
structure Undeclared (qualifier name : Text) : Prop where
  unit : ∀ file ∈ project.files, ∀ place ∈ uses file.2 qualifier name, ∀ unit ∈ file.2.unitAt place.qualifier.start,
    ∀ word ∈ [qualifier, name], word ∉ ownNames file.2 unit
  member : ∀ file ∈ project.files, ∀ place ∈ uses file.2 qualifier name,
    ∀ unit ∈ file.2.unitAt place.qualifier.start, ∀ word ∈ [qualifier, name],
      word ∉ memberNames file.2 unit place.qualifier.start
  block : ∀ file ∈ project.files, ∀ place ∈ uses file.2 qualifier name,
    ∀ unit ∈ file.2.unitAt place.qualifier.start, ∀ parent ∈ inherited project file.2 unit,
      ∀ word ∈ [qualifier, name], word ∉ ownNames parent.1 parent.2

/-- The count of the rule is the number of definitions that the project has, for both words, and a name that a
namespace lists is defined there if it is defined.  A wrong count does no harm to a name that only a standard
namespace has, or that is defined there and nowhere else. -/
structure Counted (qualifier name : Text) : Prop where
  ofQualifier : (definitions project qualifier).length = definedCount project qualifier
  ofName : (definitions project name).length = definedCount project name ∨
    (definitions project name = [] ∧ Standard project qualifier name) ∨
    ((definitions project name).length = 1 ∧ definitionsIn word project qualifier name ≠ [])
  listed : name ∈ (value project.namespaces qualifier).getD [] → definitions project name ≠ [] →
    definitionsIn word project qualifier name ≠ []

instance {qualifier name : Text} : Decidable (Undeclared project qualifier name) :=
  decidable_of_iff (_ ∧ _ ∧ _) ⟨fun h => ⟨h.1, h.2.1, h.2.2⟩, fun h => ⟨h.unit, h.member, h.block⟩⟩

instance {qualifier name : Text} : Decidable (Counted word project qualifier name) :=
  decidable_of_iff (_ ∧ _ ∧ _) ⟨fun h => ⟨h.1, h.2.1, h.2.2⟩, fun h => ⟨h.ofQualifier, h.ofName, h.listed⟩⟩

/-- The place is `qualifier.name`, and the edit leaves the name. -/
def EditsPlace (edit : FileEdit) (qualifier name : Text) : Prop :=
  ∃ index, (edit.file, index) ∈ project.files ∧ ∃ place ∈ qualifiedFrom false index.significant,
    place.qualifier.upper = qualifier ∧ place.name.upper = name ∧
      edit = { file := edit.file, start := place.qualifier.start, stop := place.name.start }

end Resolution

section Correctness

variable {word : Char → Bool} {project : Project} {file qualifier name : Text} {offset : ℕ} {edit : FileEdit}
  {proposal : QualifierProposal}

/-- **The edits are at all places `Lib.Name`, in all files.** -/
theorem mem_qualifierEdits : edit ∈ qualifierEdits project qualifier name ↔ EditsPlace project edit qualifier name := by
  have hperm : (sortBy byName project.files).Perm project.files := List.perm_insertionSort _ _
  rw [qualifierEdits, List.mem_flatMap]
  constructor
  · rintro ⟨⟨file, index⟩, hfile, hedit⟩
    obtain ⟨place, hplace, rfl⟩ := List.mem_map.1 hedit
    obtain ⟨hplace, hwords⟩ := List.mem_filter.1 hplace
    rw [decide_eq_true_eq] at hwords
    exact ⟨index, hperm.mem_iff.1 hfile, place, hplace, hwords.1, hwords.2, rfl⟩
  · rintro ⟨index, hfile, place, hplace, hqualifier, hname, hedit⟩
    refine ⟨(edit.file, index), hperm.mem_iff.2 hfile, List.mem_map.2 ⟨place, ?_, hedit.symm⟩⟩
    exact List.mem_filter.2 ⟨hplace, decide_eq_true ⟨hqualifier, hname⟩⟩

theorem definitionsIn_sublist : (definitionsIn word project qualifier name).Sublist (definitions project name) := by
  unfold definitionsIn definitions definitionsWhere
  induction project.files with
  | nil => exact .slnil
  | cons file files ih =>
    rw [List.flatMap_cons, List.flatMap_cons]
    refine List.Sublist.append (List.Sublist.map _ (List.monotone_filter_right _ fun unit h => ?_)) ih
    rw [Bool.and_eq_true] at h ⊢
    exact ⟨rfl, h.2⟩

/-- **A meaning is kept** exactly where neither word is something else. -/
theorem preserved_iff : Preserved word project file offset qualifier name ↔
    Separate word project file offset qualifier name := by
  constructor
  · intro h
    have hundefined : definitions project qualifier = [] := by
      by_contra hdefined
      have hmember := h.same
      rw [qualifiedMeaning, if_pos (.inr hdefined)] at hmember
      have hunique := h.unique
      rw [← hmember] at hunique
      cases hunique
    have hsame := h.same
    have hunique := h.unique
    rw [qualifiedMeaning, if_neg (by simp [h.noMember, hundefined])] at hsame
    rw [plainMeaning, if_neg h.noCapture] at hsame hunique
    by_cases hdefined : definitions project name = []
    · have hinside : definitionsIn word project qualifier name = [] := by
        have hsub : (definitionsIn word project qualifier name).Sublist (definitions project name) :=
          definitionsIn_sublist
        rw [hdefined] at hsub
        exact List.sublist_nil.1 hsub
      rw [if_neg (not_not.2 hdefined)] at hsame hunique
      rw [if_neg (not_not.2 hinside)] at hsame
      refine ⟨h.noMember, h.noCapture, hundefined, by simp [hdefined], hdefined.trans hinside.symm, fun _ => ?_⟩
      by_contra hstandard
      rw [if_neg hstandard] at hsame
      rw [← hsame] at hunique
      cases hunique
    · rw [if_pos hdefined] at hsame hunique
      have honce : (definitions project name).length ≤ 1 := by
        generalize definitions project name = found at hunique
        cases hunique
        exact Nat.le_refl 1
      refine ⟨h.noMember, h.noCapture, hundefined, honce, ?_, fun hnone => absurd hnone hdefined⟩
      split at hsame
      · injection hsame with hinside
        exact hinside.symm
      · split at hsame <;> cases hsame
  · intro h
    have hqualified : qualifiedMeaning word project file offset qualifier name =
        plainMeaning project file offset name := by
      rw [qualifiedMeaning, if_neg (by simp [h.noMember, h.undefined]), plainMeaning, if_neg h.noCapture, h.inside]
      split
      · rfl
      · rename_i hnone
        have hstandard := h.standard (h.inside.trans (not_not.1 hnone))
        rw [if_pos hstandard, if_pos hstandard.2]
    refine ⟨h.noMember, h.noCapture, ?_, hqualified⟩
    rw [plainMeaning, if_neg h.noCapture]
    split
    · rename_i hdefined
      obtain ⟨definition, hone⟩ := List.length_eq_one_iff.1
        (Nat.le_antisymm h.atMostOnce (List.length_pos_iff.2 hdefined))
      rw [hone]
      exact .defined definition
    · rename_i hnone
      rw [if_pos (h.standard (not_not.1 hnone)).2]
      exact .standard

/-! ## Places -/

theorem qualifiedFrom_cons (dotted : Bool) (first : LosslessToken) (rest : List LosslessToken) :
    qualifiedFrom (first.Is ".") rest ⊆ qualifiedFrom dotted (first :: rest) := by
  intro place hplace
  match rest with
  | [] => cases hplace
  | [_] => cases hplace
  | dot :: name :: rest =>
    rw [qualifiedFrom]
    split
    · exact List.mem_cons_of_mem _ hplace
    · exact hplace

theorem qualifiedFrom_drop (tokens : List LosslessToken) (n : ℕ) (dotted : Bool) :
    qualifiedFrom (if n = 0 then dotted else tokens[n - 1]?.any (·.Is ".")) (tokens.drop n) ⊆
      qualifiedFrom dotted tokens := by
  induction n generalizing tokens dotted with
  | zero => exact List.Subset.refl _
  | succ n ih =>
    cases tokens with
    | nil => exact List.Subset.refl _
    | cons first rest =>
      refine List.Subset.trans ?_ (qualifiedFrom_cons dotted first rest)
      refine List.Subset.trans ?_ (ih rest (first.Is "."))
      rw [if_neg n.succ_ne_zero, List.drop_succ_cons, Nat.add_sub_cancel]
      cases n with
      | zero => exact List.Subset.refl _
      | succ n => exact List.Subset.refl _

theorem qualifiedFrom_append (tokens more : List LosslessToken) (dotted : Bool) :
    qualifiedFrom dotted tokens ⊆ qualifiedFrom dotted (tokens ++ more) := by
  induction tokens generalizing dotted with
  | nil => exact List.nil_subset _
  | cons first rest ih =>
    match rest with
    | [] => exact List.nil_subset _
    | [_] => exact List.nil_subset _
    | dot :: name :: rest =>
      rw [List.cons_append, List.cons_append, List.cons_append, qualifiedFrom, qualifiedFrom]
      split
      · exact List.cons_subset_cons _ (ih (first.Is "."))
      · exact ih (first.Is ".")

/-- The places near a token are places of the file. -/
theorem candidates_subset (index : SourceIndex) (offset : ℕ) :
    candidates index offset ⊆ qualifiedFrom false index.significant := by
  intro place hplace
  have hwindow := List.mem_of_mem_filter hplace
  set before := index.significantIndex offset - 6
  refine qualifiedFrom_drop index.significant before false ?_
  have hdotted : (before ≠ 0 && (index.significant[before - 1]?.any (·.Is "."))) =
      if before = 0 then false else index.significant[before - 1]?.any (·.Is ".") := by
    by_cases hzero : before = 0
    · rw [if_pos hzero, decide_eq_false (not_not.2 hzero), Bool.false_and]
    · rw [if_neg hzero, decide_eq_true hzero, Bool.true_and]
  rw [hdotted] at hwindow
  have hwhole := qualifiedFrom_append _
    ((index.significant.drop before).drop (index.significantIndex offset + 6 - before + 2)) _ hwindow
  rwa [List.take_append_drop] at hwhole

theorem mem_uses_of_diagnosed {place : Qualified} (h : diagnosed project file offset = some place) :
    selects project place.qualifier.upper place.name.upper = true ∧
      ∃ entry ∈ project.files, place ∈ uses entry.2 place.qualifier.upper place.name.upper := by
  obtain ⟨index, hindex, hfound⟩ := Option.bind_eq_some_iff.1 h
  refine ⟨by simpa using List.find?_some hfound, (file, index), mem_of_value hindex, ?_⟩
  exact List.mem_filter.2 ⟨candidates_subset index offset (List.mem_of_find?_eq_some hfound),
    decide_eq_true ⟨rfl, rfl⟩⟩

/-! ## Scopes and counts -/

/-- **No unit with a place declares one of the words** exactly where they are visible at no place. -/
theorem undeclared_iff : Undeclared project qualifier name ↔ ∀ entry ∈ project.files,
    ∀ place ∈ uses entry.2 qualifier name, ∀ word ∈ [qualifier, name],
      ¬Visible project entry.1 place.qualifier.start word := by
  have hvalue : ∀ {entry}, entry ∈ project.files → value project.files entry.1 = some entry.2 :=
    fun hentry => (value_eq_some_iff project.nodup).2 hentry
  constructor
  · intro h entry hentry place hplace word hword hvisible
    cases hvisible with
    | inMember hfile hunit hname =>
      obtain rfl := Option.some.inj ((hvalue hentry).symm.trans hfile)
      exact h.member entry hentry place hplace _ hunit word hword hname
    | own hfile hunit hname =>
      obtain rfl := Option.some.inj ((hvalue hentry).symm.trans hfile)
      exact h.unit entry hentry place hplace _ hunit word hword hname
    | inherited hfile hunit hancestor hparent hname =>
      obtain rfl := Option.some.inj ((hvalue hentry).symm.trans hfile)
      exact h.block entry hentry place hplace _ hunit _ (mem_inherited.2 ⟨_, hancestor, hparent⟩) word hword hname
  · intro h
    refine ⟨fun entry hentry place hplace unit hunit word hword hname => ?_,
      fun entry hentry place hplace unit hunit word hword hname => ?_,
      fun entry hentry place hplace unit hunit parent hparent word hword hname => ?_⟩
    · exact h entry hentry place hplace word hword (.own (hvalue hentry) hunit hname)
    · exact h entry hentry place hplace word hword (.inMember (hvalue hentry) hunit hname)
    · obtain ⟨ancestor, hancestor, hparent⟩ := mem_inherited.1 hparent
      exact h entry hentry place hplace word hword (.inherited (hvalue hentry) hunit hancestor hparent hname)

/-- **The check of the rule selects the one definition** exactly where it counts right. -/
theorem counted_iff (h : selects project qualifier name = true) : Counted word project qualifier name ↔
    definitions project qualifier = [] ∧ (definitions project name).length ≤ 1 ∧
      definitions project name = definitionsIn word project qualifier name ∧
        (definitions project name = [] → Standard project qualifier name) := by
  have hsub : (definitionsIn word project qualifier name).Sublist (definitions project name) :=
    definitionsIn_sublist
  simp only [selects, Bool.and_eq_true, Bool.or_eq_true, decide_eq_true_eq, List.contains_iff_mem] at h
  obtain ⟨hqualifier, hselects⟩ := h
  constructor
  · intro hcounted
    refine ⟨List.length_eq_zero_iff.1 (hcounted.ofQualifier.trans hqualifier), ?_⟩
    by_cases hnone : definitions project name = []
    · have hstandard : Standard project qualifier name := by
        rcases hcounted.ofName with hcount | ⟨-, hstandard⟩ | ⟨hone, -⟩
        · rw [hnone] at hcount
          rcases hselects with ⟨-, hone⟩ | ⟨hstandard, -⟩
          · rw [hone] at hcount
            cases hcount
          · exact hstandard
        · exact hstandard
        · rw [hnone] at hone
          cases hone
      rw [hnone] at hsub ⊢
      exact ⟨Nat.zero_le 1, (List.sublist_nil.1 hsub).symm, fun _ => hstandard⟩
    · have hone : (definitions project name).length = 1 ∧ definitionsIn word project qualifier name ≠ [] := by
        rcases hcounted.ofName with hcount | ⟨hnil, -⟩ | hinside
        · rcases hselects with ⟨hmem, hone⟩ | ⟨-, hzero⟩
          · exact ⟨hcount.trans hone, hcounted.listed hmem hnone⟩
          · exact absurd (List.length_eq_zero_iff.1 (hcount.trans hzero)) hnone
        · exact absurd hnil hnone
        · exact hinside
      refine ⟨hone.1.le, (hsub.eq_of_length_le ?_).symm, fun hnil => absurd hnil hnone⟩
      rw [hone.1]
      exact List.length_pos_iff.2 hone.2
  · rintro ⟨hundefined, honce, hinside, hstandard⟩
    refine ⟨?_, ?_, fun _ hdefined => hinside ▸ hdefined⟩
    · rw [hundefined, hqualifier]
      rfl
    · by_cases hnone : definitions project name = []
      · exact .inr (.inl ⟨hnone, hstandard hnone⟩)
      · exact .inr (.inr ⟨Nat.le_antisymm honce (List.length_pos_iff.2 hnone), hinside ▸ hnone⟩)

theorem propose_of_diagnosed {place : Qualified} (h : diagnosed project file offset = some place) :
    propose project file offset = some {
      qualifier := place.qualifier.upper
      name := place.name.upper
      edits := qualifierEdits project place.qualifier.upper place.name.upper } := by
  unfold propose
  rw [h]
  rfl

theorem diagnosed_of_propose (h : propose project file offset = some proposal) :
    ∃ place, diagnosed project file offset = some place ∧ proposal.qualifier = place.qualifier.upper ∧
      proposal.name = place.name.upper ∧
        proposal.edits = qualifierEdits project place.qualifier.upper place.name.upper := by
  obtain ⟨place, hplace, heq⟩ := Option.bind_eq_some_iff.1 h
  cases heq
  exact ⟨place, hplace, rfl, rfl, rfl⟩

/-- **Removed qualifiers.**  Every edit takes the qualifier of a place `Lib.Name` away and preserves its
resolution if and only if, for the place that the diagnostic is about, no unit with such a place declares one
of the words and the rule counts their definitions right. -/
theorem qualifier_removal (word : Char → Bool) (project : Project) (file : Text) (offset : ℕ) :
    (∀ proposal, propose project file offset = some proposal → ∀ edit ∈ proposal.edits,
      EditsPlace project edit proposal.qualifier proposal.name ∧
        Preserved word project edit.file edit.start proposal.qualifier proposal.name) ↔
    ∀ place, diagnosed project file offset = some place →
      Undeclared project place.qualifier.upper place.name.upper ∧
        Counted word project place.qualifier.upper place.name.upper := by
  constructor
  · intro hpreserved place hplace
    obtain ⟨hselects, entry, hentry, huse⟩ := mem_uses_of_diagnosed hplace
    have hseparate : ∀ entry ∈ project.files,
        ∀ used ∈ uses entry.2 place.qualifier.upper place.name.upper,
          Separate word project entry.1 used.qualifier.start place.qualifier.upper place.name.upper := by
      intro entry hentry used hused
      obtain ⟨hused, hwords⟩ := List.mem_filter.1 hused
      rw [decide_eq_true_eq] at hwords
      exact preserved_iff.1 (hpreserved _ (propose_of_diagnosed hplace)
        { file := entry.1, start := used.qualifier.start, stop := used.name.start }
        (mem_qualifierEdits.2 ⟨entry.2, hentry, used, hused, hwords.1, hwords.2, rfl⟩)).2
    refine ⟨undeclared_iff.2 fun entry hentry used hused => ?_, (counted_iff hselects).2 ?_⟩
    · have h := hseparate entry hentry used hused
      exact List.forall_mem_cons.2 ⟨h.noMember, List.forall_mem_singleton.2 h.noCapture⟩
    · have h := hseparate entry hentry place huse
      exact ⟨h.undefined, h.atMostOnce, h.inside, h.standard⟩
  · intro hclear proposal hpropose edit hedit
    obtain ⟨place, hplace, hqualifier, hname, hedits⟩ := diagnosed_of_propose hpropose
    rw [hedits, mem_qualifierEdits] at hedit
    rw [hqualifier, hname]
    refine ⟨hedit, preserved_iff.2 ?_⟩
    obtain ⟨index, hindex, used, hused, hfirst, hsecond, hplaced⟩ := hedit
    obtain ⟨hundeclared, hcounted⟩ := hclear place hplace
    obtain ⟨hundefined, honce, hinside, hstandard⟩ := (counted_iff (mem_uses_of_diagnosed hplace).1).1 hcounted
    have hhidden := undeclared_iff.1 hundeclared (edit.file, index) hindex used
      (List.mem_filter.2 ⟨hused, decide_eq_true ⟨hfirst, hsecond⟩⟩)
    rw [show edit.start = used.qualifier.start by rw [hplaced]]
    exact ⟨hhidden _ List.mem_cons_self, hhidden _ (List.mem_cons_of_mem _ List.mem_cons_self), hundefined, honce,
      hinside, hstandard⟩

end Correctness

/-! ## Two projects -/

def wordChar (c : Char) : Bool := c.isAlphanum || c = '_'

/-- The files of a project: one of the library `Lib`, and one more. -/
def libraryFiles (library main : Text) : List (Text × SourceIndex) :=
  [("xml_p__Lib.st".toList, SourceIndex.ofText asciiData library),
    ("main.st".toList, SourceIndex.ofText asciiData main)]

theorem nodup_libraryFiles (library main : Text) : ((libraryFiles library main).map Prod.fst).Nodup := by
  have h : ["xml_p__Lib.st".toList, "main.st".toList].Nodup := by decide
  exact h

def withLibrary (library main : Text) : Project where
  files := libraryFiles library main
  nodup := nodup_libraryFiles library main
  namespaces := projectNamespaces wordChar (libraryFiles library main)
  standardNamespaces := ["STANDARD".toList]
  standardNames := ["TON".toList]

/-- Two programs that call the function `Speed` of the library. -/
def calling : Project :=
  withLibrary "FUNCTION Speed : INT END_FUNCTION".toList
    "PROGRAM P x := Lib.Speed(); END_PROGRAM PROGRAM Q VAR m : INT; END_VAR m := Lib.Speed(); END_PROGRAM".toList

theorem qualifier_removal_calling : Preserved wordChar calling "main.st".toList 15 "LIB".toList "SPEED".toList ∧
    Preserved wordChar calling "main.st".toList 76 "LIB".toList "SPEED".toList := by
  have h : propose calling "main.st".toList 18 = some {
      qualifier := "LIB".toList
      name := "SPEED".toList
      edits := [{ file := "main.st".toList, start := 15, stop := 19 },
        { file := "main.st".toList, start := 76, stop := 80 }] } ∧
      ∀ place ∈ diagnosed calling "main.st".toList 18,
        Undeclared calling place.qualifier.upper place.name.upper ∧
          Counted wordChar calling place.qualifier.upper place.name.upper := by
    -- the kernel reads a list of characters faster than a literal
    unfold calling
    rw [show String.toList "FUNCTION Speed : INT END_FUNCTION" = _ from String.toList_ofList,
      show String.toList "PROGRAM P x := Lib.Speed(); END_PROGRAM PROGRAM Q VAR m : INT; END_VAR m := Lib.Speed(); END_PROGRAM" =
        _ from String.toList_ofList]
    decide +kernel
  have hpreserved := (qualifier_removal wordChar calling "main.st".toList 18).2 h.2 _ h.1
  exact ⟨(hpreserved _ List.mem_cons_self).2, (hpreserved _ (List.mem_cons_of_mem _ List.mem_cons_self)).2⟩

/-- A program that calls the function, and one with an instance that is called like the library. -/
def shadowing : Project :=
  withLibrary "FUNCTION Speed : INT END_FUNCTION".toList
    ("FUNCTION_BLOCK Motor VAR_OUTPUT Speed : INT; END_VAR END_FUNCTION_BLOCK ".toList ++
      "PROGRAM P x := Lib.Speed(); END_PROGRAM PROGRAM Q VAR Lib : Motor; END_VAR y := Lib.Speed; END_PROGRAM".toList)

theorem not_preserved_shadowing : ¬∀ proposal, propose shadowing "main.st".toList 90 = some proposal →
    ∀ edit ∈ proposal.edits, Preserved wordChar shadowing edit.file edit.start proposal.qualifier proposal.name := by
  intro hall
  have h : propose shadowing "main.st".toList 90 = some {
      qualifier := "LIB".toList
      name := "SPEED".toList
      edits := [{ file := "main.st".toList, start := 87, stop := 91 },
        { file := "main.st".toList, start := 152, stop := 156 }] } ∧
    Visible shadowing "main.st".toList 152 "LIB".toList := by
    -- the kernel reads a list of characters faster than a literal
    unfold shadowing
    rw [show String.toList "FUNCTION_BLOCK Motor VAR_OUTPUT Speed : INT; END_VAR END_FUNCTION_BLOCK " = _ from String.toList_ofList,
      show String.toList "PROGRAM P x := Lib.Speed(); END_PROGRAM PROGRAM Q VAR Lib : Motor; END_VAR y := Lib.Speed; END_PROGRAM" = _ from String.toList_ofList,
      show String.toList "FUNCTION Speed : INT END_FUNCTION" = _ from String.toList_ofList]
    decide +kernel
  exact (hall _ h.1 _ (List.mem_cons_of_mem _ List.mem_cons_self)).noMember h.2

end SemantiST.Intake.Qualifiers
