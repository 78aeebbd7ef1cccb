import SemantiST.Lib.Python

/-!
# Lossless tokens

`tokenize_lossless` (`compiler/parser/st.py`): every character of a text lies in a token; comments,
pragmas, spaces and unknown characters are tokens too.
-/

namespace SemantiST.Intake

open Lib

inductive TokenKind where
  | whitespace | comment | pragma | property | keyword | identifier | castPrefix | typedLiteral | number
  | string | wstring | directAccess | symbol | error
deriving DecidableEq

structure LosslessToken where
  kind : TokenKind
  text : Text
  start : ℕ
  stop : ℕ
  line : ℕ
  column : ℕ
deriving DecidableEq

namespace LosslessToken

/-- `upper`; it is only compared with words of ASCII letters. -/
def upper (token : LosslessToken) : Text := toAsciiUppercase token.text

def isTrivia (token : LosslessToken) : Bool :=
  token.kind = .whitespace || token.kind = .comment || token.kind = .pragma

def isWord (token : LosslessToken) : Bool := token.kind = .keyword || token.kind = .identifier

/-- The token is the symbol. -/
def Is (token : LosslessToken) (symbol : String) : Bool := token.text = symbol.toList

end LosslessToken

/-- `RUSTY_KEYWORDS`. -/
def rustyKeywords : List String :=
  ["PROGRAM", "CLASS", "END_CLASS", "ENDCLASS", "EXTENDS", "IMPLEMENTS", "INTERFACE", "END_INTERFACE",
    "ENDINTERFACE", "VAR_INPUT", "VARINPUT", "VAR_OUTPUT", "VAROUTPUT", "VAR", "VAR_CONFIG", "ABSTRACT",
    "FINAL", "METHOD", "END_METHOD", "ENDMETHOD", "SUPER", "THIS", "PROPERTY_GET", "PROPERTYGET",
    "PROPERTY_SET", "PROPERTYSET", "END_PROPERTY", "ENDPROPERTY", "CONSTANT", "RETAIN", "NON_RETAIN",
    "NONRETAIN", "VAR_TEMP", "VARTEMP", "PUBLIC", "PRIVATE", "INTERNAL", "PROTECTED", "OVERRIDE",
    "VAR_GLOBAL", "VARGLOBAL", "VAR_IN_OUT", "VARINOUT", "VAR_EXTERNAL", "END_VAR", "ENDVAR",
    "END_PROGRAM", "ENDPROGRAM", "FUNCTION", "END_FUNCTION", "ENDFUNCTION", "FUNCTION_BLOCK",
    "FUNCTIONBLOCK", "END_FUNCTION_BLOCK", "ENDFUNCTIONBLOCK", "TYPE", "STRUCT", "END_TYPE", "ENDTYPE",
    "END_STRUCT", "ENDSTRUCT", "ACTIONS", "ACTION", "END_ACTION", "ENDACTION", "END_ACTIONS",
    "ENDACTIONS", "IF", "THEN", "ELSIF", "ELSE", "END_IF", "ENDIF", "FOR", "TO", "BY", "DO", "END_FOR",
    "ENDFOR", "WHILE", "END_WHILE", "ENDWHILE", "REPEAT", "UNTIL", "END_REPEAT", "ENDREPEAT", "CASE",
    "RETURN", "EXIT", "CONTINUE", "POINTER", "__FPOINTER", "REF_TO", "REFTO", "ARRAY", "STRING", "WSTRING",
    "OF", "AT", "END_CASE", "ENDCASE", "MOD", "AND_THEN", "AND", "OR_ELSE", "OR", "XOR", "NOT", "NULL",
    "TRUE", "FALSE"]

def propertyTokens : List String :=
  ["\x7bexternal\x7d", "\x7bref\x7d", "\x7bconstant\x7d", "\x7bsized\x7d", "@EXTERNAL", "@CONSTANT"]

/-- `_SYMBOLS`, the longer ones first. -/
def symbols : List String :=
  ["...", ":=", "=>", "..", "**", "<>", "<=", ">=", ":", ";", "(", ")", "[", "]", ",", ".", "+", "-", "*", "/",
    "=", "<", ">", "&", "^"]

/-- The words that a text may be. -/
def Among (word : Text) (words : List String) : Bool := words.any fun w => w.toList = word

def startsWith (s : Text) (p : String) : Bool := p.toList.isPrefixOf s

/-! ## Tokens of one kind -/

def isBlank (c : Char) : Bool := c = ' ' || c = '\t' || c = '\n' || c = '\x0c' || c = '\r'

def isIdentChar (c : Char) : Bool := c.isAlpha || c = '_' || c.isDigit

/-- The place after a block comment, of which `i` characters are read. -/
def blockCommentEnd (opener close : Char) : ℕ → Char → ℕ → Text → Option ℕ
  | _, _, _, [] => none
  | unclosed, prev, i, c :: rest =>
    if c = '*' ∧ prev = opener then blockCommentEnd opener close (unclosed + 1) ' ' (i + 1) rest
    else if c = close ∧ prev = '*' then
      if unclosed = 1 then some (i + 1) else blockCommentEnd opener close (unclosed - 1) c (i + 1) rest
    else blockCommentEnd opener close unclosed c (i + 1) rest

/-- The place after a string literal, of which `i` characters are read; `$` escapes the next one. -/
def stringEnd (quote : Char) : ℕ → Text → Option ℕ
  | _, [] => none
  | i, '$' :: c :: rest => if c = '\n' then none else stringEnd quote (i + 2) rest
  | i, c :: rest => if c = '$' then none else if c = quote then some (i + 1) else stringEnd quote (i + 1) rest

/-- The length of digits that single underscores may group. -/
def groupedLength (digit : Char → Bool) : Text → ℕ
  | [] => 0
  | c :: rest =>
    if digit c || (c = '_' && rest.head?.any digit) then groupedLength digit rest + 1 else 0

def isHexDigit (c : Char) : Bool := (hexDigit c).isSome

/-- The length of a number of a base, after `base#`. -/
def basedLength (base : String) (digit : Char → Bool) (s : Text) : ℕ :=
  let digits := s.drop base.length
  if startsWith s base && digits.head?.any digit then base.length + groupedLength digit digits else 0

/-- The length of a decimal number with its exponent. -/
def decimalLength (s : Text) : ℕ :=
  let n := groupedLength Char.isDigit s
  let sign := fun rest : Text => if rest.head?.any (fun c => c = '+' || c = '-') then 1 else 0
  match s.drop n with
  | e :: rest =>
    let exponent := (rest.drop (sign rest)).takeWhile Char.isDigit
    if (e = 'e' || e = 'E') && exponent ≠ [] then n + 1 + sign rest + exponent.length else n
  | [] => n

def numberLength (s : Text) : ℕ :=
  max (max (basedLength "16#" isHexDigit s) (basedLength "8#" (fun c => '0' ≤ c && c ≤ '7') s))
    (max (basedLength "2#" (fun c => c = '0' || c = '1') s) (decimalLength s))

def directLength : Text → Option ℕ
  | _ :: a :: rest =>
    let sized := fun c : Char => "BbDdWwLlXx".toList.contains c
    if "IiQqMmGg".toList.contains a && rest.head?.any (fun b => sized b || b = '*') then some 3
    else if sized a then some 2
    else none
  | _ => none

/-! ## Typed literals -/

section TypedLiterals

variable (u : UnicodeData)

def isDecimal (c : Char) : Bool := (u.decimal c).isSome

/-- The rest after one or more digits. -/
def afterDigits (s : Text) : Option Text :=
  if s.head?.any (isDecimal u) then some (s.dropWhile (isDecimal u)) else none

/-- The rest after a character and digits. -/
def afterPart (separator : Char) (s : Text) : Option Text :=
  match s with
  | c :: rest => if c = separator then afterDigits u rest else none
  | [] => none

/-- The rest after seconds and their fraction, both of which may be missing. -/
def afterSeconds (s : Text) : Text :=
  match afterPart u ':' s with
  | some rest => (afterPart u '.' rest).getD rest
  | none => s

def afterDate (s : Text) : Option Text := do afterPart u '-' (← afterPart u '-' (← afterDigits u s))

def afterDateAndTime (s : Text) : Option Text := do
  return afterSeconds u (← afterPart u ':' (← afterPart u '-' (← afterDate u s)))

def afterTimeOfDay (s : Text) : Option Text := do return afterSeconds u (← afterPart u ':' (← afterDigits u s))

/-- The rest after the unit of a duration; letters are read in either case, and `s` also in its long form. -/
def afterUnit (s : Text) : Option Text :=
  match s.map (fun c => if c = '\u017f' then 's' else c.toLower), s with
  | 'd' :: _, _ :: rest | 'h' :: _, _ :: rest => some rest
  | 'm' :: 's' :: _, _ :: _ :: rest | 'u' :: 's' :: _, _ :: _ :: rest | 'n' :: 's' :: _, _ :: _ :: rest => some rest
  | 'm' :: _, _ :: rest | 's' :: _, _ :: rest => some rest
  | _, _ => none

def afterDurationPart (s : Text) : Option Text := do
  let rest ← afterDigits u s
  afterUnit ((afterPart u '.' rest).getD rest)

/-- The rest after the parts of a duration. -/
def afterParts : ℕ → Text → Text
  | 0, s => s
  | fuel + 1, s =>
    match afterDurationPart u s with
    | some rest => afterParts fuel rest
    | none => s

def afterDuration (s : Text) : Option Text := do
  let rest ← afterDurationPart u (if s.head? = some '-' then s.tail else s)
  return afterParts u rest.length rest

/-- The length of a typed literal after its prefix, which names its type. -/
def typedLiteralLength (word : Text) (s : Text) : Option ℕ :=
  let rest :=
    if Among word ["LDATE", "DATE", "LD", "D"] then afterDate u s
    else if Among word ["DATE_AND_TIME", "DT", "LDATE_AND_TIME", "LDT"] then afterDateAndTime u s
    else if Among word ["TIME_OF_DAY", "LTIME_OF_DAY", "TOD", "LTOD"] then afterTimeOfDay u s
    else if Among word ["LTIME", "LT", "TIME", "T"] then afterDuration u s
    else none
  rest.map fun rest => s.length - rest.length

/-! ## The scanner -/

/-- A word: a keyword, an identifier, or what stands before `#`. -/
def scanWord (s : Text) : TokenKind × ℕ :=
  let word := s.takeWhile isIdentChar
  let upper := toAsciiUppercase word
  let best : TokenKind × ℕ := (if Among upper rustyKeywords then .keyword else .identifier, word.length)
  let best := if toAsciiUppercase (s.take 4) = "REF=".toList && best.2 ≤ 4 then (.symbol, 4) else best
  let best := if toAsciiUppercase (s.take 12) = "REFERENCE TO".toList && best.2 ≤ 12 then (.keyword, 12) else best
  if (s.drop best.2).head? = some '#' then
    match typedLiteralLength u upper (s.drop (best.2 + 1)) with
    | some n => (.typedLiteral, best.2 + 1 + n)
    | none => (.castPrefix, best.2 + 1)
  else best

/-- The kind and the length of the token that a text starts with. -/
def scan (s : Text) : TokenKind × ℕ :=
  match s with
  | [] => (.error, 0)
  | c :: rest =>
    if isBlank c then (.whitespace, (s.takeWhile isBlank).length)
    else if startsWith s "(*" || startsWith s "/*" then
      match blockCommentEnd c (if c = '(' then ')' else '/') 1 ' ' 2 (s.drop 2) with
      | some n => (.comment, n)
      | none => (.error, 2)
    else if startsWith s "//" then (.comment, (s.takeWhile (· ≠ '\n')).length)
    else if c = '\x7b' || c = '@' then
      match propertyTokens.find? (startsWith s) with
      | some token => (.property, token.length)
      | none =>
        if c = '\x7b' && rest.contains '\x7d' then (.pragma, (rest.takeWhile (· ≠ '\x7d')).length + 2)
        else (.error, 1)
    else if c = '\'' || c = '\"' then
      match stringEnd c 1 rest with
      | some n => (if c = '\'' then .string else .wstring, n)
      | none => (.error, 1)
    else if c = '%' then
      match directLength s with
      | some n => (.directAccess, n)
      | none => (.error, 1)
    else if c.isAlpha || c = '_' then scanWord u s
    else if c.isDigit then (.number, numberLength s)
    else
      match symbols.find? (startsWith s) with
      | some symbol => (.symbol, symbol.length)
      | none => (.error, 1)

def tokensFrom : ℕ → ℕ → ℕ → ℕ → Text → List LosslessToken
  | 0, _, _, _, _ => []
  | _, _, _, _, [] => []
  | fuel + 1, i, line, lineStart, s =>
    let (kind, n) := scan u s
    let text := s.take n
    let newlines := text.count '\n'
    { kind := kind, text := text, start := i, stop := i + n, line := line, column := i - lineStart + 1 } ::
      tokensFrom fuel (i + n) (line + newlines)
        (if newlines = 0 then lineStart else i + n - (text.reverse.takeWhile (· ≠ '\n')).length) (s.drop n)

def tokenizeLossless (src : Text) : List LosslessToken := tokensFrom u src.length 0 1 0 src

end TypedLiterals

/-- The tokens the parser sees. -/
def significant (tokens : List LosslessToken) : List LosslessToken := tokens.filter fun token => !token.isTrivia

end SemantiST.Intake
