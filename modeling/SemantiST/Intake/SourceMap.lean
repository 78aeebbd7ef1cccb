import SemantiST.Lib.Tiles
import SemantiST.Lib.Map
import SemantiST.Lib.Text

/-!
# Span edits with a mapping back to the original

`EditableSource` (`compiler/intake/normalize/sourcemap.py`): a text as a row of pieces.  A copied
piece is a part of the original, a replacement carries the span that it replaces.  Beside it stands
what the mapping is for: a text in which every character knows the offsets of the original it comes
from.
-/

namespace SemantiST.Intake

open Lib

/-! ## Pieces -/

structure Piece where
  text : Text
  originalStart : ℕ
  originalEnd : ℕ
  rule : Option Text := none
  isExact : Bool := false
deriving DecidableEq

def Piece.copied (piece : Piece) : Bool := piece.rule.isNone

def Piece.precise (piece : Piece) : Bool := piece.copied || piece.isExact

structure EditableSource where
  original : Text
  pieces : List Piece
deriving DecidableEq

inductive EditError where
  | reversed
  | intoItself
deriving DecidableEq

namespace EditableSource

/-- A text before any edit. -/
def ofText (original : Text) : EditableSource where
  original := original
  pieces :=
    if original = [] then []
    else [{ text := original, originalStart := 0, originalEnd := original.length }]

def text (source : EditableSource) : Text := source.pieces.flatMap Piece.text

/-- Part of a piece; part of a replacement keeps the whole original span. -/
def slicePiece (piece : Piece) (start finish : ℕ) : Piece :=
  if piece.precise then
    { text := slice start finish piece.text
      originalStart := piece.originalStart + start
      originalEnd := piece.originalStart + finish
      rule := piece.rule
      isExact := piece.isExact }
  else
    { text := slice start finish piece.text
      originalStart := piece.originalStart
      originalEnd := piece.originalEnd
      rule := piece.rule }

def toOriginalFrom (original : Text) (offset : ℕ) : ℕ → List Piece → ℕ
  | _, [] => original.length
  | position, piece :: rest =>
    if offset < position + piece.text.length ∨ rest = [] then
      if piece.precise then piece.originalStart + min (offset - position) piece.text.length
      else piece.originalStart
    else toOriginalFrom original offset (position + piece.text.length) rest

/-- The original offset of a current offset: the start of the replaced span inside a replacement. -/
def toOriginal (source : EditableSource) (offset : ℕ) : ℕ :=
  toOriginalFrom source.original offset 0 source.pieces

/-! ## Replacing -/

/-- The pieces before a span, inside it and after it. -/
def cutSpan (start stop : ℕ) : ℕ → List Piece → List Piece × List Piece × List Piece
  | _, [] => ([], [], [])
  | pieceStart, piece :: rest =>
    let pieceEnd := pieceStart + piece.text.length
    let (before, covered, after) := cutSpan start stop pieceEnd rest
    if pieceEnd ≤ start ∧ ¬(pieceStart < start ∧ start < pieceEnd) then
      (piece :: before, covered, after)
    else if stop ≤ pieceStart ∧ ¬(pieceStart < start ∧ start < pieceEnd) then
      (before, covered, piece :: after)
    else
      let head := if pieceStart < start then [slicePiece piece 0 (start - pieceStart)] else []
      let inner := slicePiece piece (max start pieceStart - pieceStart) (min stop pieceEnd - pieceStart)
      let middle := if inner.text = [] then [] else [inner]
      let tail :=
        if stop < pieceEnd then [slicePiece piece (stop - pieceStart) (pieceEnd - pieceStart)] else []
      (head ++ before, middle ++ covered, tail ++ after)

/-- The original span of what some pieces stand for; `origin` where there are none. -/
def coveredSpan (origin : ℕ) : List Piece → ℕ × ℕ
  | [] => (origin, origin)
  | piece :: rest =>
    (rest.foldl (fun low piece => min low piece.originalStart) piece.originalStart,
      rest.foldl (fun high piece => max high piece.originalEnd) piece.originalEnd)

def replace (source : EditableSource) (start stop : ℕ) (replacement rule : Text) :
    Except EditError EditableSource :=
  if stop < start then .error .reversed
  else
    let insertionOrigin := source.toOriginal start
    let (before, covered, after) := cutSpan start stop 0 source.pieces
    let (originalStart, originalEnd) := coveredSpan insertionOrigin covered
    let new : Piece := { text := replacement, originalStart, originalEnd, rule := some rule }
    .ok { source with
      pieces := (before ++ [new] ++ after).filter fun piece => piece.text ≠ [] || !piece.copied }

/-! ## Moving -/

/-- The parts between consecutive bounds, each with the bounds. -/
def partsBetween (piece : Piece) (pieceStart : ℕ) (bounds : List ℕ) : List (ℕ × ℕ × Piece) :=
  (bounds.zip bounds.tail).map fun bound =>
    (bound.1, bound.2, slicePiece piece (bound.1 - pieceStart) (bound.2 - pieceStart))

/-- The pieces, cut at the ends of the span and at the destination. -/
def cutParts (start stop destination : ℕ) : ℕ → List Piece → List (ℕ × ℕ × Piece)
  | _, [] => []
  | pieceStart, piece :: rest =>
    let pieceEnd := pieceStart + piece.text.length
    let cuts := sortedSet ([start, stop, destination].filter fun cut =>
      cut ≠ pieceStart ∧ cut ≠ pieceEnd)
    let bounds := pieceStart :: (cuts.filter fun cut => pieceStart < cut ∧ cut < pieceEnd) ++ [pieceEnd]
    partsBetween piece pieceStart bounds ++ cutParts start stop destination pieceEnd rest

/-- The moved pieces, put before the first piece that starts at the destination or after it. -/
def insertMoved (destination : ℕ) (moved : List Piece) : List (ℕ × ℕ × Piece) → List Piece
  | [] => moved
  | (low, _, piece) :: rest =>
    if destination ≤ low then moved ++ (piece :: rest.map fun part => part.2.2)
    else piece :: insertMoved destination moved rest

def move (source : EditableSource) (start stop destination : ℕ) (rule : Text) :
    Except EditError EditableSource :=
  if start < destination ∧ destination < stop then .error .intoItself
  else
    let parts := cutParts start stop destination 0 source.pieces
    let inside := fun part : ℕ × ℕ × Piece => decide (start ≤ part.1 ∧ part.2.1 ≤ stop ∧ start < stop)
    let moved := (parts.filter inside).map fun part =>
      { part.2.2 with rule := some rule, isExact := part.2.2.precise }
    let kept := parts.filter fun part => !inside part
    .ok { source with pieces := (insertMoved destination moved kept).filter fun piece => piece.text ≠ [] }

end EditableSource

/-! ## Edits -/

inductive Edit where
  | replace (start stop : ℕ) (replacement rule : Text)
  | move (start stop destination : ℕ) (rule : Text)

def EditableSource.apply (source : EditableSource) : Edit → Except EditError EditableSource
  | .replace start stop replacement rule => source.replace start stop replacement rule
  | .move start stop destination rule => source.move start stop destination rule

/-- The coordinates of an edit lie in a text of a length, and a span is not moved into itself. -/
def Edit.InRange (length : ℕ) : Edit → Prop
  | .replace start stop _ _ => start ≤ stop ∧ stop ≤ length
  | .move start stop destination _ =>
    start ≤ stop ∧ stop ≤ length ∧ destination ≤ length ∧ ¬(start < destination ∧ destination < stop)

instance (length : ℕ) : (edit : Edit) → Decidable (edit.InRange length)
  | .replace .. => inferInstanceAs (Decidable (_ ∧ _))
  | .move .. => inferInstanceAs (Decidable (_ ∧ _))

/-- What an edit does to a text. -/
def Edit.applyText : Edit → Text → Text
  | .replace start stop replacement _ => replaceSpan start stop replacement
  | .move start stop destination _ => moveSpan start stop destination

/-! ## Characters with their origins -/

/-- A text whose characters know the original offsets they come from. -/
abbrev Tracked := List (Char × List ℕ)

def trackedText (original : Text) : Tracked :=
  original.zipIdx.map fun entry => (entry.1, [entry.2])

/-- What an edit does to a tracked text: every character of a replacement comes from all that the
replaced characters come from. -/
def Edit.track : Edit → Tracked → Tracked
  | .replace start stop replacement _, tracked =>
    let origins := (slice start stop tracked).flatMap Prod.snd
    replaceSpan start stop (replacement.map fun c => (c, origins)) tracked
  | .move start stop destination _, tracked => moveSpan start stop destination tracked

/-- A text after a sequence of edits, each in the coordinates of the text before it. -/
inductive Edited (original : Text) : EditableSource → Tracked → Prop where
  | start : Edited original (.ofText original) (trackedText original)
  | edit {source source' : EditableSource} {tracked : Tracked} (h : Edited original source tracked)
      (edit : Edit) (hrange : edit.InRange source.text.length) (happly : source.apply edit = .ok source') :
      Edited original source' (edit.track tracked)

end SemantiST.Intake
