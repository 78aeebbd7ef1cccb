import Mathlib.Data.Int.Log
import Mathlib.Data.List.Infix
import Mathlib.Data.Rat.Floor
import SemantiST.Lib.Rust

/-!
# The Python standard library

Texts and numerals, as far as the corpus uses them.  What depends on the version of Unicode is a
parameter; the language fixes it on the ASCII characters.
-/

namespace SemantiST.Lib

/-! ## Texts -/

/-- `str.isspace` of one character. -/
def isSpace (c : Char) : Bool := isWhitespace c || (0x1c ≤ c.toNat && c.toNat ≤ 0x1f)

/-- The characters `str.splitlines` splits at. -/
def isLineBreak (c : Char) : Bool :=
  let n := c.toNat
  (10 ≤ n && n ≤ 13) || (0x1c ≤ n && n ≤ 0x1e) || n == 0x85 || n == 0x2028 || n == 0x2029

/-- `str.splitlines`: a carriage return and the line feed after it are one break. -/
def splitlines : Text → List Text
  | [] => []
  | '\r' :: '\n' :: s => [] :: splitlines s
  | c :: s =>
    if isLineBreak c then [] :: splitlines s
    else
      match splitlines s with
      | [] => [[c]]
      | l :: ls => (c :: l) :: ls

/-- The character database, and what it says of ASCII. -/
structure UnicodeData where
  /-- `str.upper` of one character. -/
  upper : Char → Text
  /-- The value of a character of category Nd. -/
  decimal : Char → Option ℕ
  upper_ascii : ∀ c : Char, c.toNat < 128 → upper c = [c.toUpper]
  decimal_ascii : ∀ c : Char, c.toNat < 128 → decimal c = decDigit c

/-- A database that knows no other characters. -/
def asciiData : UnicodeData where
  upper c := [c.toUpper]
  decimal := decDigit
  upper_ascii _ _ := rfl
  decimal_ascii _ _ := rfl

def UnicodeData.upperText (u : UnicodeData) (s : Text) : Text := s.flatMap u.upper

/-! ## Integers -/

/-- The text as `int` and `float` read it: other decimal digits and spaces are those of ASCII. -/
def UnicodeData.asciiNumeral (u : UnicodeData) (s : Text) : Text :=
  s.map fun c =>
    if c.toNat < 128 then c
    else if isSpace c then ' '
    else
      match u.decimal c with
      | some d => Char.ofNat ('0'.toNat + d)
      | none => '?'

/-- `Py_ISSPACE`. -/
def isAsciiSpace (c : Char) : Bool := c == ' ' || (9 ≤ c.toNat && c.toNat ≤ 13)

/-- `sys.int_info.default_max_str_digits`. -/
def maxStrDigits : ℕ := 4300

/-- A numeral whose digits single underscores may group. -/
def groupedNumber (digit : Char → Option ℕ) (base : ℕ) (s : Text) : Option ℕ :=
  if s.head? = some '_' ∨ s.getLast? = some '_' ∨ ['_', '_'] <:+: s then none
  else readNumber digit base (s.filter fun c => c ≠ '_')

/-- A decimal numeral, of which `int` reads only so many digits. -/
def groupedDecimal (s : Text) : Option ℕ :=
  if maxStrDigits < (s.filter fun c => c ≠ '_').length then none else groupedNumber decDigit 10 s

/-- The value of a digit of a base up to ten. -/
def smallDigit (base : ℕ) (c : Char) : Option ℕ := (decDigit c).filter (· < base)

/-- The digits after the prefix of a base, which an underscore may follow. -/
def afterBasePrefix (digits : Text) : Text := (match digits with | '_' :: rest => rest | _ => digits)

/-- What `int(text, base)` reads after the sign, for the bases the program uses; base 0 reads the
base off the numeral, and no zeros before a decimal one. -/
def intMagnitude (base : ℕ) (s : Text) : Option ℕ :=
  if base = 10 then groupedDecimal s
  else if base = 16 then
    groupedNumber hexDigit 16 (((stripHexPrefix s).map afterBasePrefix).getD s)
  else
    match s with
    | '0' :: 'x' :: digits | '0' :: 'X' :: digits =>
      groupedNumber hexDigit 16 (afterBasePrefix digits)
    | '0' :: 'o' :: digits | '0' :: 'O' :: digits =>
      groupedNumber (smallDigit 8) 8 (afterBasePrefix digits)
    | '0' :: 'b' :: digits | '0' :: 'B' :: digits =>
      groupedNumber (smallDigit 2) 2 (afterBasePrefix digits)
    | '0' :: _ => (groupedDecimal s).filter (· = 0)
    | _ => groupedDecimal s

/-- A number after an optional sign. -/
def readSign (magnitude : Text → Option ℕ) : Text → Option ℤ
  | '-' :: digits => (magnitude digits).map fun n : ℕ => -(n : ℤ)
  | '+' :: digits => (magnitude digits).map Int.ofNat
  | digits => (magnitude digits).map Int.ofNat

/-- `int(text, base)`. -/
def UnicodeData.int (u : UnicodeData) (base : ℕ) (s : Text) : Option ℤ :=
  readSign (intMagnitude base) (trim isAsciiSpace (u.asciiNumeral s))

/-- `str(n)`. -/
def intText (n : ℤ) : Text := if n < 0 then '-' :: decimal n.natAbs else decimal n.natAbs

/-! ## Floating-point numbers -/

/-- Every underscore stands between two digits. -/
def underscoresInDigits : Text → Bool
  | a :: '_' :: b :: s => a.isDigit && b.isDigit && underscoresInDigits (b :: s)
  | c :: s => c != '_' && underscoresInDigits s
  | [] => true

/-- The value of `digits`, `digits.`, `digits.digits` or `.digits`. -/
def mantissaValue (s : Text) : Option ℚ :=
  let (whole, fraction) := (splitOnce '.' s).getD (s, [])
  (readNumber decDigit 10 (whole ++ fraction)).map fun n : ℕ => (n : ℚ) / 10 ^ fraction.length

/-- The value of an unsigned floating-point numeral. -/
def decimalValue (s : Text) : Option ℚ :=
  match (splitOnce 'e' s).or (splitOnce 'E' s) with
  | none => mantissaValue s
  | some (mantissa, exponent) =>
    let (negative, digits) :=
      match exponent with
      | '-' :: rest => (true, rest)
      | '+' :: rest => (false, rest)
      | _ => (false, exponent)
    (mantissaValue mantissa).bind fun m =>
      (readNumber decDigit 10 digits).map fun e : ℕ =>
        m * (10 : ℚ) ^ (if negative then -(e : ℤ) else (e : ℤ))

def roundHalfEven (q : ℚ) : ℤ :=
  let low := ⌊q⌋
  if q - low < 1 / 2 then low
  else if 1 / 2 < q - low then low + 1
  else if low % 2 = 0 then low else low + 1

/-- The binary floating-point number nearest to `q`, with `precision` bits and no exponent below
`least`; the exponent is not bounded above. -/
def nearestBinary (precision least : ℤ) (q : ℚ) : ℚ :=
  if q ≤ 0 then 0
  else
    let ulp : ℚ := 2 ^ max (Int.log 2 q + 1 - precision) least
    roundHalfEven (q / ulp) * ulp

/-- A double, when it is finite. -/
def nearestDouble (q : ℚ) : Option ℚ :=
  let d := nearestBinary 53 (-1074) q
  if d < 2 ^ 1024 then some d else none

/-- The absolute value of `float(text)`, when it is finite. -/
def UnicodeData.floatMagnitude (u : UnicodeData) (s : Text) : Option ℚ :=
  let text := trim isAsciiSpace (u.asciiNumeral s)
  if underscoresInDigits text then
    let digits :=
      match text with
      | '-' :: rest | '+' :: rest => rest
      | _ => text
    (decimalValue (digits.filter fun c => c ≠ '_')).bind nearestDouble
  else none

/-- `struct.pack` finds a single-precision number near a double of this absolute value. -/
def packsSingle (d : ℚ) : Bool := nearestBinary 24 (-149) d < 2 ^ 128

/-! ## Plain integers -/

section Plain

variable {s : Text} {n : ℕ}

theorem groupedNumber_eq {digit : Char → Option ℕ} {base : ℕ} (h : '_' ∉ s) :
    groupedNumber digit base s = readNumber digit base s := by
  have hfilter : (s.filter fun c => c ≠ '_') = s :=
    List.filter_eq_self.2 fun c hc => decide_eq_true fun he => h (he ▸ hc)
  unfold groupedNumber
  rw [hfilter, if_neg]
  rintro (hhead | hlast | hin)
  · exact h (List.mem_of_mem_head? hhead)
  · exact h (List.mem_of_mem_getLast? hlast)
  · exact h (hin.subset List.mem_cons_self)

theorem groupedDecimal_eq_some (h : '_' ∉ s) (hn : groupedDecimal s = some n) :
    readNumber decDigit 10 s = some n := by
  unfold groupedDecimal at hn
  split at hn
  · cases hn
  · rwa [groupedNumber_eq h] at hn

/-- A text of digits in base 0 spells the number it spells in base 10. -/
theorem intMagnitude_zero_of_isDigit (h : ∀ c ∈ s, c.isDigit = true)
    (hn : intMagnitude 0 s = some n) : readNumber decDigit 10 s = some n := by
  have hunderscore : '_' ∉ s := fun hmem => by
    have := isDigit_range (h _ hmem)
    revert this
    decide
  have hsecond {c d : Char} {rest : Text} (hs : s = c :: d :: rest) : d.isDigit = true :=
    h d (by simp [hs])
  unfold intMagnitude at hn
  rw [if_neg (by decide), if_neg (by decide)] at hn
  split at hn
  · exact absurd (hsecond rfl) (by decide)
  · exact absurd (hsecond rfl) (by decide)
  · exact absurd (hsecond rfl) (by decide)
  · exact absurd (hsecond rfl) (by decide)
  · exact absurd (hsecond rfl) (by decide)
  · exact absurd (hsecond rfl) (by decide)
  · obtain ⟨hn, -⟩ := Option.filter_eq_some_iff.1 hn
    exact groupedDecimal_eq_some hunderscore hn
  · exact groupedDecimal_eq_some hunderscore hn

theorem readSign_of_isDigit {magnitude : Text → Option ℕ} (hne : s ≠ [])
    (h : ∀ c ∈ s, c.isDigit = true) : readSign magnitude s = (magnitude s).map Int.ofNat := by
  cases s with
  | nil => exact absurd rfl hne
  | cons c s =>
    have hc := isDigit_range (h c List.mem_cons_self)
    unfold readSign
    split
    · rename_i heq
      obtain ⟨rfl, -⟩ := List.cons.inj heq
      exact absurd hc (by decide)
    · rename_i heq
      obtain ⟨rfl, -⟩ := List.cons.inj heq
      exact absurd hc (by decide)
    · rfl

end Plain

/-! ## ASCII texts -/

section Ascii

variable {u : UnicodeData} {s : Text} {c : Char}

/-- Printable ASCII. -/
def Printable (s : Text) : Prop := ∀ c ∈ s, 0x20 ≤ c.toNat ∧ c.toNat ≤ 0x7e

theorem Printable.sublist {s' : Text} (h : Printable s) (hs : s'.Sublist s) : Printable s' :=
  fun c hc => h c (hs.subset hc)

theorem upperText_ascii (h : ∀ c ∈ s, c.toNat < 128) : u.upperText s = toAsciiUppercase s := by
  induction s with
  | nil => rfl
  | cons c s ih =>
    have hrest := ih fun d hd => h d (List.mem_cons_of_mem _ hd)
    rw [UnicodeData.upperText, List.flatMap_cons, u.upper_ascii c (h c List.mem_cons_self)]
    exact congrArg (c.toUpper :: ·) hrest

theorem asciiNumeral_ascii (h : ∀ c ∈ s, c.toNat < 128) : u.asciiNumeral s = s := by
  conv_rhs => rw [← List.map_id s]
  refine List.map_congr_left fun c hc => ?_
  rw [if_pos (h c hc), id]

/-- `int` of a trimmed ASCII text. -/
theorem int_ascii {base : ℕ} (h : ∀ c ∈ s, c.toNat < 128) (ht : Trimmed isSpace s) :
    u.int base s = readSign (intMagnitude base) s := by
  have hle : ∀ c, isAsciiSpace c = true → isSpace c = true := by
    intro c hc
    simp only [isAsciiSpace, isSpace, isWhitespace, Bool.or_eq_true, beq_iff_eq, Bool.and_eq_true,
      decide_eq_true_eq] at hc ⊢
    rcases hc with rfl | hc
    · decide
    · omega
  rw [UnicodeData.int, asciiNumeral_ascii h, trim_of_trimmed (ht.mono hle)]

theorem isSpace_printable (h : 0x20 ≤ c.toNat ∧ c.toNat ≤ 0x7e) : isSpace c = isWhitespace c := by
  have hsep : (0x1c ≤ c.toNat && c.toNat ≤ 0x1f) = false := by
    simp only [Bool.and_eq_false_iff, decide_eq_false_iff_not]
    omega
  rw [isSpace, hsep, Bool.or_false]

theorem isSpace_graphic (h : 0x21 ≤ c.toNat ∧ c.toNat ≤ 0x7e) : isSpace c = false := by
  simp only [isSpace, isWhitespace, Bool.or_eq_false_iff, Bool.and_eq_false_iff,
    decide_eq_false_iff_not, beq_eq_false_iff_ne]
  omega

/-- The two trims agree on printable texts. -/
theorem trim_printable (h : Printable s) : trim isSpace s = trim isWhitespace s := by
  have hdrop : s.dropWhile isSpace = s.dropWhile isWhitespace := by
    induction s with
    | nil => rfl
    | cons c s ih =>
      rw [List.dropWhile_cons, List.dropWhile_cons, isSpace_printable (h c List.mem_cons_self),
        ih fun d hd => h d (List.mem_cons_of_mem _ hd)]
  have hdropRight : ∀ t : Text, Printable t → t.rdropWhile isSpace = t.rdropWhile isWhitespace := by
    intro t ht
    induction t using List.reverseRecOn with
    | nil => rfl
    | append_singleton t c ih =>
      have hc := isSpace_printable (ht c (by simp))
      by_cases hw : isWhitespace c = true
      · rw [List.rdropWhile_concat_pos _ _ _ (hc.trans hw), List.rdropWhile_concat_pos _ _ _ hw]
        exact ih fun d hd => ht d (List.mem_append_left _ hd)
      · rw [List.rdropWhile_concat_neg _ _ _ (by rwa [hc]), List.rdropWhile_concat_neg _ _ _ hw]
  rw [trim, trim, hdrop]
  exact hdropRight _ (h.sublist (List.dropWhile_sublist _))

theorem lineBody_cons {l : Text} (hc : c ≠ '\n') (hl : '\r' ∉ c :: l) :
    lineBody (c :: l) = c :: lineBody l := by
  have hbody : ∀ b : Text, '\r' ∉ b → lineBody (b ++ ['\n']) = b := by
    intro b hb
    have hlast : b.getLast? ≠ some '\r' := fun h => hb (List.mem_of_mem_getLast? h)
    rw [lineBody, stripSuffix_concat]
    simp [stripSuffix, hlast]
  have hself : ∀ b : Text, b.getLast? ≠ some '\n' → lineBody b = b := by
    intro b hb
    simp [lineBody, stripSuffix, hb]
  by_cases hlast : l.getLast? = some '\n'
  · obtain ⟨b, rfl⟩ := List.getLast?_eq_some_iff.1 hlast
    have hb : '\r' ∉ c :: b := fun h => hl (List.mem_append_left ['\n'] h)
    rw [← List.cons_append, hbody _ hb, hbody _ fun h => hb (List.mem_cons_of_mem _ h)]
  · rw [hself l hlast, hself]
    cases l with
    | nil => simpa using hc
    | cons d l => rwa [List.getLast?_cons_cons]

/-- The two ways to cut a text into lines agree when its only breaks are line feeds. -/
theorem splitlines_eq_lines (h : ∀ c ∈ s, c = '\n' ∨ isLineBreak c = false) : splitlines s = lines s := by
  have hcr : '\r' ∉ s := fun hmem => by
    have := h _ hmem
    revert this
    decide
  induction s with
  | nil => rfl
  | cons c s ih =>
    have ih := ih (fun d hd => h d (List.mem_cons_of_mem _ hd)) fun hmem =>
      hcr (List.mem_cons_of_mem _ hmem)
    have hne : c ≠ '\r' := fun he => hcr (he ▸ List.mem_cons_self)
    rw [splitlines, ih]
    · by_cases hc : c = '\n'
      · subst hc
        rw [if_pos (by decide), lines, lines, splitInclusive, if_pos rfl, List.map_cons]
        rfl
      · rw [if_neg (by simp [(h c List.mem_cons_self).resolve_left hc]), lines, lines, splitInclusive,
          if_neg hc]
        cases hs : splitInclusive '\n' s with
        | nil =>
          simp [lineBody, stripSuffix, hc]
        | cons l ls =>
          have hl : '\r' ∉ c :: l := by
            rintro hmem
            rcases List.mem_cons.1 hmem with he | hmem
            · exact hne he.symm
            · exact hcr (List.mem_cons_of_mem _ (mem_of_mem_splitInclusive (hs ▸ List.mem_cons_self) hmem))
          simp [lineBody_cons hc hl]
    · exact fun s' he => absurd he hne

end Ascii

/-! ## Lines -/

section Lines

variable {ls : List Text} {text raw : Text}

theorem splitlines_unlines (h : ∀ l ∈ ls, ∀ c ∈ l, isLineBreak c = false) : splitlines (unlines ls) = ls := by
  have not_mem {l : Text} (hl : l ∈ ls) {c : Char} (hc : isLineBreak c = true) : c ∉ l := by
    intro hmem
    rw [h l hl c hmem] at hc
    cases hc
  rw [splitlines_eq_lines, lines_unlines]
  · intro l hl
    exact ⟨not_mem hl (by decide), fun hlast => not_mem hl (by decide) (List.mem_of_getLast? hlast)⟩
  · intro c hc
    obtain ⟨l, hl, hc⟩ := List.mem_flatMap.1 hc
    rcases List.mem_append.1 hc with hc | hc
    · exact Or.inr (h l hl c hc)
    · exact Or.inl (List.mem_singleton.1 hc)

theorem notBreak_of_mem_splitlines (h : raw ∈ splitlines text) : ∀ c ∈ raw, isLineBreak c = false := by
  induction text using splitlines.induct generalizing raw with
  | case1 => cases h
  | case2 rest ih =>
    rw [splitlines] at h
    rcases List.mem_cons.1 h with rfl | h
    · exact fun c hc => absurd hc List.not_mem_nil
    · exact ih h
  | case3 c rest hne hbreak ih =>
    rw [splitlines, if_pos hbreak] at h
    · rcases List.mem_cons.1 h with rfl | h
      · exact fun c hc => absurd hc List.not_mem_nil
      · exact ih h
    · exact hne
  | case4 c rest hne hbreak hnil ih =>
    rw [splitlines, if_neg hbreak, hnil] at h
    · rw [List.mem_singleton.1 h]
      intro d hd
      rw [List.mem_singleton.1 hd]
      simpa using hbreak
    · exact hne
  | case5 c rest hne hbreak l ls hcons ih =>
    rw [splitlines, if_neg hbreak, hcons] at h
    · rcases List.mem_cons.1 h with rfl | h
      · intro d hd
        rcases List.mem_cons.1 hd with rfl | hd
        · simpa using hbreak
        · exact ih (hcons ▸ List.mem_cons_self) d hd
      · exact ih (hcons ▸ List.mem_cons_of_mem _ h)
    · exact hne

end Lines

end SemantiST.Lib
