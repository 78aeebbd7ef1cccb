import SemantiST.Lib.FloatNumber

/-!
# Floating-point numbers in Python

`float` of a text, and the format `g`.
-/

namespace SemantiST.Lib

/-- `float(text)` -/
def UnicodeData.float (u : UnicodeData) (s : Text) : Option FloatNumber :=
  let text := trim isAsciiSpace (u.asciiNumeral s)
  let (negative, digits) :=
    match text with
    | '-' :: rest => (true, rest)
    | '+' :: rest => (false, rest)
    | _ => (false, text)
  let word := digits.map Char.toLower
  if word = "inf".toList ∨ word = "infinity".toList then some (.infinite negative)
  else if word = "nan".toList then some .nan
  else if underscoresInDigits text then
    (decimalValue (digits.filter fun c => c ≠ '_')).map fun q =>
      match nearestDouble q with
      | some d => .finite (if negative then -d else d)
      | none => .infinite negative
  else none

/-! ## Printing -/

/-- The first `precision` digits of a positive number as an integer, and the power of ten of the first. -/
def significand (precision : ℕ) (q : ℚ) : ℕ × ℤ :=
  let e := Int.log 10 q
  let m := (roundHalfEven (q / 10 ^ (e + 1 - precision))).toNat
  if m = 10 ^ precision then (10 ^ (precision - 1), e + 1) else (m, e)

/-- A numeral with a fraction, without the zeros at its end. -/
def pointed (whole fraction : Text) : Text :=
  let fraction := fraction.rdropWhile fun c => c = '0'
  if fraction = [] then whole else whole ++ '.' :: fraction

/-- The format `.<precision>g`. -/
def formatG (precision : ℕ) (q : ℚ) : Text :=
  if q = 0 then ['0']
  else
    let (m, e) := significand precision |q|
    let digits := decimal m
    let numeral :=
      if 0 ≤ e ∧ e < precision then pointed (digits.take (e.toNat + 1)) (digits.drop (e.toNat + 1))
      else if -4 ≤ e ∧ e < 0 then pointed ['0'] (List.replicate (-e - 1).toNat '0' ++ digits)
      else
        let exponent := decimal e.natAbs
        pointed (digits.take 1) (digits.drop 1) ++ 'e' :: (if e < 0 then '-' else '+') ::
          (if exponent.length < 2 then '0' :: exponent else exponent)
    if q < 0 then '-' :: numeral else numeral

/-! ## What is read of plain texts -/

theorem float_ascii {u : UnicodeData} {s : Text} (h : ∀ c ∈ s, c.toNat < 128) :
    u.float s = asciiData.float s := by
  unfold UnicodeData.float
  rw [asciiNumeral_ascii h, asciiNumeral_ascii h]

end SemantiST.Lib
