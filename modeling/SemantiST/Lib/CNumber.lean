import SemantiST.Lib.Text

/-!
# Numbers of the C library

`strtoull` and `strtoll` of the C standard, for 64-bit types and the bases `2` to `36`.  A text is
what stands before the NUL, a pointer into it is the rest of the text from there on.
-/

namespace SemantiST.Lib

def ullongMax : ℕ := 2 ^ 64 - 1
def llongMax : ℤ := 2 ^ 63 - 1
def llongMin : ℤ := -2 ^ 63

/-- What a conversion gives: its result, `*end`, and whether `errno` is then `ERANGE`. -/
structure Conversion (α : Type) where
  value : α
  rest : Text
  erange : Bool
deriving DecidableEq

/-- A conversion function: what it makes of `errno`, a text and a base. -/
abbrev StrTo (α : Type) := Bool → Text → ℕ → Conversion α

/-! ## Characters -/

/-- `isspace` of the C locale. -/
def isCSpace (c : Char) : Bool := c = ' ' || (9 ≤ c.toNat && c.toNat ≤ 13)

/-- The value of a digit or a letter. -/
def alphaDigit (c : Char) : Option ℕ :=
  if c.isDigit then some (c.toNat - '0'.toNat)
  else if 'a' ≤ c ∧ c ≤ 'z' then some (c.toNat - 'a'.toNat + 10)
  else if 'A' ≤ c ∧ c ≤ 'Z' then some (c.toNat - 'A'.toNat + 10)
  else none

/-- The value of a digit of the base. -/
def baseDigit (base : ℕ) (c : Char) : Option ℕ := (alphaDigit c).filter (· < base)

/-! ## The conversion -/

/-- The digits from the head of the text on, read after the value `n`, and what follows them. -/
def scanDigits (digit : Char → Option ℕ) (base : ℕ) : ℕ → Text → ℕ × Text
  | n, [] => (n, [])
  | n, c :: text =>
    (digit c).elim (n, c :: text) fun d => scanDigits digit base (n * base + d) text

/-- A sign and what follows it. -/
def takeSign : Text → Bool × Text
  | '-' :: rest => (true, rest)
  | '+' :: rest => (false, rest)
  | text => (false, text)

/-- For base 16 the text without a prefix that is followed by a digit. -/
def skipHexPrefix (base : ℕ) (text : Text) : Text :=
  if base = 16 then
    (stripHexPrefix text).elim text fun digits =>
      if (digits.head?.bind (baseDigit 16)).isSome then digits else text
  else text

/-- The sign and the magnitude of the number at the head of the text, and what follows it; `none`
where there are no digits. -/
def subject (text : Text) (base : ℕ) : Option (Bool × ℕ × Text) :=
  let (negative, unsigned) := takeSign (text.dropWhile isCSpace)
  let digits := skipHexPrefix base unsigned
  let (magnitude, rest) := scanDigits (baseDigit base) base 0 digits
  if rest = digits then none else some (negative, magnitude, rest)

/-- `strtoull`: a minus sign negates the value in the unsigned type. -/
def strtoull : StrTo ℕ := fun errno text base =>
  (subject text base).elim ⟨0, text, errno⟩ fun (negative, magnitude, rest) =>
    if ullongMax < magnitude then ⟨ullongMax, rest, true⟩
    else ⟨if negative then (2 ^ 64 - magnitude) % 2 ^ 64 else magnitude, rest, errno⟩

def strtoll : StrTo ℤ := fun errno text base =>
  (subject text base).elim ⟨0, text, errno⟩ fun (negative, magnitude, rest) =>
    let value : ℤ := if negative then -magnitude else magnitude
    if llongMax < value then ⟨llongMax, rest, true⟩
    else if value < llongMin then ⟨llongMin, rest, true⟩
    else ⟨value, rest, errno⟩

/-! ## Scanning -/

section

variable {digit : Char → Option ℕ} {base n : ℕ} {text : Text}

/-- The digits of a base up to 16 are hexadecimal digits. -/
theorem filter_hexDigit (hbase : base ≤ 16) (c : Char) : (hexDigit c).filter (· < base) = baseDigit base c := by
  unfold hexDigit baseDigit alphaDigit
  by_cases hdigit : c.isDigit = true
  · rw [if_pos hdigit, if_pos hdigit]
  · rw [if_neg hdigit, if_neg hdigit]
    have hlower : ∀ top : Char, ('a' ≤ c ∧ c ≤ top) ↔ 97 ≤ c.toNat ∧ c.toNat ≤ top.toNat := fun _ => Iff.rfl
    have hupper : ∀ top : Char, ('A' ≤ c ∧ c ≤ top) ↔ 65 ≤ c.toNat ∧ c.toNat ≤ top.toNat := fun _ => Iff.rfl
    have hdigits : 'a'.toNat = 97 ∧ 'f'.toNat = 102 ∧ 'z'.toNat = 122 ∧ 'A'.toNat = 65 ∧ 'F'.toNat = 70 ∧
      'Z'.toNat = 90 := by decide
    obtain ⟨ha, hf, hz, hA, hF, hZ⟩ := hdigits
    simp only [hlower, hupper, ha, hf, hz, hA, hF, hZ]
    -- the letters after `f` are no digits of the base
    have hnone : ∀ digit, base ≤ digit → Option.filter (· < base) (some digit) = none := by
      intro digit hlarge
      exact Option.filter_some_neg (decide_eq_false (Nat.not_lt.2 hlarge))
    by_cases hlow : 97 ≤ c.toNat ∧ c.toNat ≤ 122
    · rw [if_pos hlow]
      by_cases hhex : c.toNat ≤ 102
      · rw [if_pos ⟨hlow.1, hhex⟩]
      · rw [if_neg (by omega), if_neg (by omega), hnone _ (by omega), Option.filter_none]
    · rw [if_neg hlow, if_neg (by omega)]
      by_cases hup : 65 ≤ c.toNat ∧ c.toNat ≤ 90
      · rw [if_pos hup]
        by_cases hhex : c.toNat ≤ 70
        · rw [if_pos ⟨hup.1, hhex⟩]
        · rw [if_neg (by omega), hnone _ (by omega), Option.filter_none]
      · rw [if_neg hup, if_neg (by omega)]

theorem scanDigits_length (digit : Char → Option ℕ) (base n : ℕ) (text : Text) :
    (scanDigits digit base n text).2.length ≤ text.length := by
  induction text generalizing n with
  | nil => exact le_rfl
  | cons c text ih =>
    rw [scanDigits]
    cases digit c with
    | none => exact le_rfl
    | some d => exact (ih _).trans (Nat.le_succ _)

/-- Where nothing is read there is no digit. -/
theorem scanDigits_eq_self (h : (scanDigits digit base n text).2 = text) :
    scanDigits digit base n text = (n, text) := by
  cases text with
  | nil => rfl
  | cons c text =>
    rw [scanDigits] at h ⊢
    cases hd : digit c with
    | none => rfl
    | some d =>
      rw [hd, Option.elim_some] at h
      have hlength := scanDigits_length digit base (n * base + d) text
      rw [h, List.length_cons] at hlength
      omega

theorem scanDigits_of_head (h : text.head?.bind digit = none) : scanDigits digit base n text = (n, text) := by
  cases text with
  | nil => rfl
  | cons c text =>
    rw [List.head?_cons, Option.bind_some] at h
    rw [scanDigits, h, Option.elim_none]

theorem takeSign_eq (text : Text) : takeSign text = (decide (text.head? = some '-'),
    if text.head? = some '+' ∨ text.head? = some '-' then text.tail else text) := by
  unfold takeSign
  split
  · rfl
  · rfl
  · rename_i hminus hplus
    cases text with
    | nil => rfl
    | cons c text =>
      have hm : c ≠ '-' := fun h => hminus text (h ▸ rfl)
      have hp : c ≠ '+' := fun h => hplus text (h ▸ rfl)
      rw [List.head?_cons, if_neg (by simp [hm, hp]), decide_eq_false (by simp [hm])]

theorem stripHexPrefix_eq_some {rest : Text} (h : stripHexPrefix text = some rest) :
    ∃ x, (x = 'x' ∨ x = 'X') ∧ text = '0' :: x :: rest := by
  unfold stripHexPrefix at h
  split at h
  · cases h
    exact ⟨_, .inl rfl, rfl⟩
  · cases h
    exact ⟨_, .inr rfl, rfl⟩
  · cases h

end

end SemantiST.Lib
