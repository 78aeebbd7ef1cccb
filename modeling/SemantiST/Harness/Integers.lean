import SemantiST.Lib.CNumber

/-!
# The checked integer parsers of the harness

They read the value of a record with the conversion functions of the C library.
-/

namespace SemantiST.Harness

open Lib

def isBlank (c : Char) : Bool := c = ' ' || c = '\t' || c = '\r'

/-- `skip_spaces` -/
def skipSpaces (value : Text) : Text := value.dropWhile isBlank

/-- `semantist_numeric_end` -/
def numericEnd (rest : Text) : Bool := rest.dropWhile isBlank = []

/-- The base that the first characters choose. -/
def baseOf (digits : Text) : ℕ := if (stripHexPrefix digits).isSome then 16 else 10

/-- `semantist_parse_unsigned_checked` -/
def parseUnsignedChecked (strtoull : StrTo ℕ) (value : Text) (maximum : ℕ) : Option ℕ :=
  let start := skipSpaces value
  if start.head? = some '-' ∨ start = [] then none
  else
    let start := if start.head? = some '+' then start.tail else start
    let parsed := strtoull false start (baseOf start)
    if parsed.erange = true ∨ parsed.rest = start ∨ numericEnd parsed.rest = false ∨ maximum < parsed.value then none
    else some parsed.value

/-- `semantist_parse_signed_checked` -/
def parseSignedChecked (strtoll : StrTo ℤ) (value : Text) (minimum maximum : ℤ) : Option ℤ :=
  let start := skipSpaces value
  if start = [] then none
  else
    let digits := if start.head? = some '-' ∨ start.head? = some '+' then start.tail else start
    let parsed := strtoll false start (baseOf digits)
    if parsed.erange = true ∨ parsed.rest = start ∨ numericEnd parsed.rest = false ∨
        parsed.value < minimum ∨ maximum < parsed.value then none
    else some parsed.value

end SemantiST.Harness
