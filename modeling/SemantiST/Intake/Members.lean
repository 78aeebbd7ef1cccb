import SemantiST.Intake.Normalize

/-!
# Members of a block

`MemberReorder` (`normalize/rules/structure.py`): the members that an export keeps after the body of a
block are moved, methods and properties before the body, actions behind the block.
-/

namespace SemantiST.Intake

open Lib

/-- `VAR_BLOCKS`. -/
def varBlocks : List String :=
  ["VAR", "VAR_INPUT", "VAR_OUTPUT", "VAR_IN_OUT", "VAR_TEMP", "VAR_EXTERNAL", "VAR_STAT", "VAR_INST", "VARINPUT",
    "VAROUTPUT", "VARINOUT", "VARTEMP"]

/-- `MEMBER_KEYWORDS`. -/
def memberKeywords : List String :=
  ["METHOD", "PROPERTY", "ACTION", "PROPERTY_GET", "PROPERTY_SET", "PROPERTYGET", "PROPERTYSET"]

/-- `OWNER_KINDS`. -/
def ownerKinds : List String := ["FUNCTION_BLOCK", "PROGRAM", "CLASS"]

/-- The access words that may stand before the name of a block. -/
def headerModifiers : List String := ["PUBLIC", "PRIVATE", "PROTECTED", "INTERNAL", "ABSTRACT", "FINAL"]

/-- `_word`. -/
def LosslessToken.word (token : LosslessToken) : Text := if token.isWord then canonicalKeyword token.text else token.text

/-! ## The parts of a block -/

def dropHeaderModifiers : List LosslessToken → List LosslessToken
  | token :: next :: rest =>
    if Among token.upper headerModifiers && next.isWord then dropHeaderModifiers (next :: rest) else token :: next :: rest
  | tokens => tokens

/-- The tokens after further parts of a qualified name. -/
def dropQualifiers : List LosslessToken → List LosslessToken
  | dot :: next :: rest => if dot.Is "." && next.isWord then dropQualifiers rest else dot :: next :: rest
  | tokens => tokens

/-- The tokens after a qualified name. -/
def dropQualified (tokens : List LosslessToken) : List LosslessToken := dropQualifiers tokens.tail

/-- The tokens after further names of a list. -/
def dropListed : ℕ → List LosslessToken → List LosslessToken
  | 0, tokens => tokens
  | fuel + 1, tokens => if tokens.head?.any (·.Is ",") then dropListed fuel (dropQualified tokens.tail) else tokens

/-- `header_end`: the tokens of a block after its header, without those from its end on. -/
def afterHeader (tokens : List LosslessToken) : List LosslessToken :=
  let tokens := (dropHeaderModifiers tokens.tail).tail
  let tokens :=
    if tokens.head?.any (·.upper = "EXTENDS".toList) then dropQualified tokens.tail else tokens
  let tokens :=
    if tokens.head?.any (·.upper = "IMPLEMENTS".toList) then
      let rest := dropQualified tokens.tail
      dropListed rest.length rest
    else tokens
  match tokens with
  | token :: rest => if token.Is ":" then rest.dropWhile fun other => other.line = token.line else token :: rest
  | [] => []

/-- The start of the body, and the members after it. -/
structure Layout where
  bodyStart : Option ℕ := none
  membersAfter : List Member := []

/-- The tokens of a block after its header, read from left to right. -/
def layoutFrom (members : List Member) : ℕ → Layout → List LosslessToken → Layout
  | 0, shape, _ => shape
  | _, shape, [] => shape
  | fuel + 1, shape, token :: rest =>
    if Among token.word varBlocks && shape.bodyStart.isNone then
      layoutFrom members fuel shape (rest.dropWhile fun other => other.word ≠ "END_VAR".toList).tail
    else
      match members.find? fun member => member.start = token.start with
      | some member =>
        layoutFrom members fuel
          (if shape.bodyStart.isSome then { shape with membersAfter := shape.membersAfter ++ [member] } else shape)
          ((token :: rest).dropWhile fun other => other.stop ≤ member.stop)
      | none => layoutFrom members fuel { shape with bodyStart := some (shape.bodyStart.getD token.start) } rest

/-- `layout`: the body and the trailing members of a block. -/
def layout (index : SourceIndex) (unit : Unit) : Layout :=
  let tokens := index.significant
  let first := index.significantIndex unit.start
  let ends := fun token : LosslessToken => Among token.word ["END_FUNCTION_BLOCK", "END_PROGRAM", "END_CLASS"]
  let inside := (tokens.take (index.significantIndex (unit.stop - 1) + 1)).drop first
  -- the tokens before the last END keyword
  let body := (inside.reverse.dropWhile fun token => !ends token).tail.reverse
  layoutFrom unit.members body.length {} (afterHeader body)

def ownerOf (index : SourceIndex) (offset : ℕ) : Option Unit :=
  (index.unitAt offset).filter fun unit => Among unit.kind ownerKinds

/-! ## Moved spans -/

/-- `_leading_pragmas`: the start of the pragmas directly in front of a token. -/
def leadingPragmas (index : SourceIndex) (start : ℕ) : ℕ :=
  let before := (index.tokens.takeWhile fun token => token.start ≠ start).reverse
  let blanks := before.takeWhile fun token => token.kind = .whitespace ∨ token.kind = .pragma
  ((blanks.filter fun token => token.kind = .pragma).getLast?.map LosslessToken.start).getD start

/-- `_line_start`: the start of the line of an offset, if only blanks stand before it there. -/
def lineStart (text : Text) (offset : ℕ) : ℕ :=
  let blanks := ((text.take offset).reverse.takeWhile (· ≠ '\n'))
  if blanks.all isSpace then offset - blanks.length else offset

/-- `_line_end`: the place after the line feed that ends the line of an offset, if only blanks follow. -/
def lineEnd (text : Text) (offset : ℕ) : ℕ :=
  let rest := (text.drop offset).takeWhile (· ≠ '\n')
  if rest.all isSpace then min (offset + rest.length + 1) text.length else offset

/-! ## The rule -/

/-- The id of the rule. -/
def memberReorderId : Text := "member-reorder".toList

/-- The names of trailing actions that are not qualified. -/
def unqualifiedNames (index : SourceIndex) (trailing : List Member) : List LosslessToken :=
  trailing.filterMap fun member =>
    if member.kind = "ACTION".toList then
      match index.significant.drop (index.significantIndex member.start + 1) with
      | name :: next :: _ => if next.Is "." then none else some name
      | [name] => some name
      | [] => none
    else none

/-- The first run of trailing members that are all actions, or all others. -/
def firstGroup (first : Member) (others : List Member) : List Member :=
  others.takeWhile fun other => (other.kind = "ACTION".toList ↔ first.kind = "ACTION".toList)

/-- `MemberReorder.propose`. -/
def proposeMemberReorder (context : RuleContext) (file : Text) (located : Located) : Option Proposal := do
  let token ← located.token
  guard (token.isWord ∧ Among token.upper memberKeywords)
  let index := context.index file
  let unit ← ownerOf index token.start
  let shape := layout index unit
  guard (shape.membersAfter.any fun member => member.start = token.start)
  let names := unqualifiedNames index shape.membersAfter
  if names ≠ [] then
    return {
      rule := memberReorderId
      key := { rule := memberReorderId, file, offset := unit.start, tag := "qualify".toList }
      edits := names.map fun name =>
        { file, start := name.start, stop := name.stop, replacement := unit.name ++ '.' :: name.text } }
  let first ← shape.membersAfter.head?
  let last := (firstGroup first shape.membersAfter.tail).getLast?.getD first
  let destination :=
    if first.kind = "ACTION".toList then lineEnd index.text unit.stop
    else lineStart index.text (leadingPragmas index (shape.bodyStart.getD 0))
  return {
    rule := memberReorderId
    key := { rule := memberReorderId, file, offset := first.start, tag := "move".toList }
    edits := [{
      file
      start := lineStart index.text (leadingPragmas index first.start)
      stop := lineEnd index.text last.stop
      moveTo := some destination }] }

def memberReorder : Rule where
  codes := ["E007".toList, "E006".toList]
  propose context file located := (proposeMemberReorder context file located, context.knownNames)

end SemantiST.Intake
