import SemantiST.Intake.Tokens

/-!
# Units of a source text

`structure.py`, a structural scan that pairs each declaration keyword with its end, and the
`SourceIndex` of `diagnostics.py`: positions, tokens and units of one text.
-/

namespace SemantiST.Intake

open Lib

/-- `UNIT_END`. -/
def unitEnds : List (String × String) :=
  [("FUNCTION", "END_FUNCTION"), ("FUNCTION_BLOCK", "END_FUNCTION_BLOCK"), ("PROGRAM", "END_PROGRAM"),
    ("CLASS", "END_CLASS"), ("INTERFACE", "END_INTERFACE"), ("TYPE", "END_TYPE"),
    ("CONFIGURATION", "END_CONFIGURATION"), ("DATA_BLOCK", "END_DATA_BLOCK"),
    ("ORGANIZATION_BLOCK", "END_ORGANIZATION_BLOCK"), ("VAR_GLOBAL", "END_VAR"), ("ACTIONS", "END_ACTIONS"),
    ("METHOD", "END_METHOD"), ("PROPERTY", "END_PROPERTY"), ("ACTION", "END_ACTION"),
    ("PROPERTY_GET", "END_PROPERTY"), ("PROPERTY_SET", "END_PROPERTY")]

def containerKinds : List String := ["FUNCTION_BLOCK", "CLASS", "INTERFACE", "PROGRAM"]

def memberKinds : List String := ["METHOD", "PROPERTY", "ACTION", "PROPERTY_GET", "PROPERTY_SET"]

def modifiers : List String := ["PUBLIC", "PRIVATE", "PROTECTED", "INTERNAL", "ABSTRACT", "FINAL", "OVERRIDE"]

def keywordAliases : List (String × String) :=
  [("FUNCTIONBLOCK", "FUNCTION_BLOCK"), ("END_FUNCTIONBLOCK", "END_FUNCTION_BLOCK"),
    ("ENDFUNCTIONBLOCK", "END_FUNCTION_BLOCK"), ("PROPERTYGET", "PROPERTY_GET"), ("PROPERTYSET", "PROPERTY_SET")]

/-- The value of a word in a table. -/
def lookupWord (table : List (String × String)) (word : Text) : Option Text :=
  (table.find? fun entry => entry.1.toList = word).map fun entry => entry.2.toList

def canonicalKeyword (word : Text) : Text :=
  let word := toAsciiUppercase word
  match lookupWord keywordAliases word with
  | some keyword => keyword
  | none =>
    if startsWith word "END" && !startsWith word "END_" && 3 < word.length then "END_".toList ++ word.drop 3 else word

namespace LosslessToken

/-- The canonical keyword of a word; nothing for other tokens. -/
def keyword (token : LosslessToken) : Text := if token.isWord then canonicalKeyword token.text else []

/-- The token may name a unit. -/
def isName (token : LosslessToken) : Bool := token.isWord || token.kind = .wstring

end LosslessToken

/-- `MARKER`: the comments that an extractor puts before the text of a source. -/
def markerValue (comment : Text) : Option Text :=
  ["(* Source member: ", "(* Source: ", "(* Object: ", "(* Global variable list: ", "(* Original worksheet ",
    "(* Source "].findSome? fun opening =>
      let value := comment.drop opening.length
      if startsWith comment opening && " *)".toList.isSuffixOf value then some (value.take (value.length - 3)) else none

structure Member where
  kind : Text
  name : Text
  start : ℕ
  stop : ℕ
  line : ℕ
deriving DecidableEq

structure Unit where
  kind : Text
  name : Text
  start : ℕ
  stop : ℕ
  line : ℕ
  endLine : ℕ
  namespaceName : Text
  marker : Option Text
  closed : Bool
  members : List Member
deriving DecidableEq

def joinDots (parts : List Text) : Text := ['.'].intercalate parts

def Unit.qualifiedName (unit : Unit) : Text :=
  if unit.namespaceName ≠ [] ∧ unit.name ≠ [] then unit.namespaceName ++ '.' :: unit.name else unit.name

/-- A modifier is followed by another name; otherwise it is the name itself. -/
def dropModifiers : List LosslessToken → List LosslessToken
  | token :: next :: rest =>
    if Among token.upper modifiers && next.isName then dropModifiers (next :: rest) else token :: next :: rest
  | tokens => tokens

/-- `_declared_name`: the name after a declaration keyword, that of an action with its owner. -/
def declaredName (keyword : LosslessToken) (rest : List LosslessToken) : Text :=
  match dropModifiers rest with
  | token :: rest =>
    if token.isName then
      let name := trim (· = '\"') token.text
      match rest with
      | dot :: action :: _ =>
        if keyword.upper = "ACTION".toList ∧ dot.Is "." ∧ action.isWord then name ++ '.' :: action.text else name
      | _ => name
    else []
  | [] => []

/-- `_span_end`: the end of an END keyword and of a semicolon right after it. -/
def spanEnd (keyword : LosslessToken) (rest : List LosslessToken) : ℕ :=
  match rest with
  | token :: _ => if token.Is ";" then token.stop else keyword.stop
  | [] => keyword.stop

/-- The end of the last of some tokens. -/
def lastStop (first : LosslessToken) (tokens : List LosslessToken) : ℕ := (tokens.getLast?.getD first).stop

/-- Where a member ends, and the tokens after it; an unclosed one ends where its owner ends. -/
def memberEnd (memberWord endWord : Text) (start : LosslessToken) (rest : List LosslessToken) :
    ℕ × List LosslessToken :=
  let inside := rest.takeWhile fun token => token.keyword ≠ memberWord ∧ token.keyword ≠ endWord
  match rest.drop inside.length with
  | token :: after =>
    if token.keyword = memberWord then (spanEnd token after, after) else (lastStop start inside, token :: after)
  | [] => (lastStop start inside, [])

/-- The members of a unit, and the tokens from its end on. -/
def unitBody (word endWord : Text) : ℕ → ℕ → List LosslessToken → List Member × List LosslessToken
  | 0, _, _ => ([], [])
  | _, _, [] => ([], [])
  | fuel + 1, depth, token :: rest =>
    let other := token.keyword
    if other = endWord then
      if depth = 0 then ([], token :: rest) else unitBody word endWord fuel (depth - 1) rest
    else if other = word ∧ ¬Among word ["VAR_GLOBAL", "TYPE"] then unitBody word endWord fuel (depth + 1) rest
    else if Among word containerKinds ∧ Among other memberKinds then
      let (stop, after) := memberEnd ((lookupWord unitEnds other).getD []) endWord token rest
      let member : Member :=
        { kind := other, name := declaredName token rest, start := token.start, stop := stop, line := token.line }
      let (members, tokens) := unitBody word endWord fuel depth after
      (member :: members, tokens)
    else unitBody word endWord fuel depth rest

/-- The words of a dotted name, and the tokens after it. -/
def dottedWords : List LosslessToken → List Text × List LosslessToken
  | token :: dot :: rest =>
    if token.isWord then
      if dot.Is "." then
        let (parts, rest) := dottedWords rest
        (token.text :: parts, rest)
      else ([token.text], dot :: rest)
    else ([], token :: dot :: rest)
  | [token] => if token.isWord then ([token.text], []) else ([], [token])
  | [] => ([], [])

/-- The markers of a text, by their places. -/
def markersOf (tokens : List LosslessToken) : List (ℕ × Text) :=
  tokens.filterMap fun token =>
    if token.kind = .comment then (markerValue token.text).map fun value => (token.start, value) else none

def unitsFrom (markers : List (ℕ × Text)) (last : ℕ × ℕ) : ℕ → List Text → List LosslessToken → List Unit
  | 0, _, _ => []
  | _, _, [] => []
  | fuel + 1, namespaces, token :: rest =>
    let word := token.keyword
    if word = "NAMESPACE".toList then
      let (parts, after) := dottedWords rest
      unitsFrom markers last fuel (namespaces ++ [joinDots parts]) after
    else if word = "END_NAMESPACE".toList ∧ namespaces ≠ [] then unitsFrom markers last fuel namespaces.dropLast rest
    else
      match lookupWord unitEnds word with
      | none => unitsFrom markers last fuel namespaces rest
      | some endWord =>
        let (members, tokens) := unitBody word endWord rest.length 0 rest
        let (stop, endLine, closed, after) :=
          match tokens with
          | keyword :: after => (spanEnd keyword after, keyword.line, true, after)
          | [] => (last.1, last.2, false, [])
        { kind := word
          name := if word = "VAR_GLOBAL".toList then [] else declaredName token rest
          start := token.start
          stop := stop
          line := token.line
          endLine := endLine
          namespaceName := joinDots namespaces
          marker := ((markers.filter fun marker => marker.1 < token.start).getLast?).map Prod.snd
          closed := closed
          members := members } :: unitsFrom markers last fuel namespaces after

/-- `split_units`. -/
def splitUnits (tokens : List LosslessToken) : List Unit :=
  let sig := significant tokens
  let last := sig.getLast?.map fun token => (token.stop, token.line)
  unitsFrom (markersOf tokens) (last.getD (0, 0)) sig.length [] sig

/-! ## The index of a text -/

structure SourceIndex where
  text : Text
  tokens : List LosslessToken
  units : List Unit

namespace SourceIndex

def ofText (u : UnicodeData) (text : Text) : SourceIndex :=
  let tokens := tokenizeLossless u text
  { text := text, tokens := tokens, units := splitUnits tokens }

def significant (index : SourceIndex) : List LosslessToken := Intake.significant index.tokens

/-- The index of the first significant token that starts at an offset or after it, or contains it. -/
def significantIndex (index : SourceIndex) (offset : ℕ) : ℕ :=
  (index.significant.takeWhile fun token => token.stop ≤ offset).length

/-- The number of characters that lie within so many bytes. -/
def charsWithin : ℕ → Text → ℕ
  | _, [] => 0
  | bytes, c :: rest => if c.utf8Size ≤ bytes then charsWithin (bytes - c.utf8Size) rest + 1 else 0

/-- The line that starts at an offset, with its line feed. -/
def lineFrom (text : Text) : Text :=
  match text.dropWhile (· ≠ '\n') with
  | [] => text
  | _ => text.takeWhile (· ≠ '\n') ++ ['\n']

/-- The offset of a 1-based line and a 1-based byte column. -/
def offsetIn : ℕ → ℕ → ℕ → Text → ℕ
  | 0, _, position, text => position + text.length
  | 1, column, position, text => position + charsWithin (column - 1) (lineFrom text)
  | line + 2, column, position, text =>
    match text.dropWhile (· ≠ '\n') with
    | [] => position + text.length
    | _ :: rest => offsetIn (line + 1) column (position + (lineFrom text).length) rest

def offset (index : SourceIndex) (line column : ℕ) : ℕ := offsetIn line column 0 index.text

/-- The token at an offset; trivia stand for the next significant token. -/
def tokenAt (index : SourceIndex) (offset : ℕ) : Option LosslessToken :=
  let after := index.tokens.dropWhile fun token => token.stop ≤ offset
  match after.find? fun token => !token.isTrivia with
  | some token => some token
  | none => index.tokens.getLast?

def unitAt (index : SourceIndex) (offset : ℕ) : Option Unit :=
  index.units.find? fun unit => unit.start ≤ offset ∧ offset < unit.stop

end SourceIndex

end SemantiST.Intake
