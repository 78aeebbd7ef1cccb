import SemantiST.Harness.Integers

/-!
# The integer conversions of the library models

`strtoull` and `strtoll` of `libc_stubs.c`, with which the harness is run symbolically.
-/

namespace SemantiST.Symbolic

open Lib Harness

/-! ## The model -/

/-- `decimal_digit` -/
def decimalDigit (c : Char) : Option ℕ := hexDigit c

/-- The blanks that `parse_integer` skips. -/
def isStubSpace (c : Char) : Bool := c = ' ' || c = '\t' || c = '\n' || c = '\r'

/-- The loop of `parse_integer` over the digits: the value, the overflow flag and the rest. -/
def digitLoop (base limit : ℕ) : ℕ → Bool → Text → ℕ × Bool × Text
  | value, overflow, [] => (value, overflow, [])
  | value, overflow, c :: text =>
    (decimalDigit c).elim (value, overflow, c :: text) fun digit =>
      if base ≤ digit then (value, overflow, c :: text)
      else if (limit - digit) / base < value then digitLoop base limit value true text
      else if !overflow then digitLoop base limit (value * base + digit) overflow text
      else digitLoop base limit value overflow text

/-- `parse_integer`, with the sign it found. -/
def parseInteger (errno : Bool) (text : Text) (base limit : ℕ) : Bool × Conversion ℕ :=
  let start := text
  let text := text.dropWhile isStubSpace
  let negative := text.head? = some '-'
  let text := if text.head? = some '+' ∨ text.head? = some '-' then text.tail else text
  let base := if base = 0 then (if (stripHexPrefix text).isSome then 16 else 10) else base
  let digits := if base = 16 then (stripHexPrefix text).getD text else text
  let (value, overflow, text) := digitLoop base limit 0 false digits
  let rest := if text = digits then start else text
  (negative, if overflow then ⟨limit, rest, true⟩ else ⟨value, rest, errno⟩)

/-- `strtoull` of the models. -/
def stubStrtoull : StrTo ℕ := fun errno text base =>
  let (negative, parsed) := parseInteger errno text base ullongMax
  { parsed with value := if negative then (2 ^ 64 - parsed.value) % 2 ^ 64 else parsed.value }

/-- `strtoll` of the models. -/
def stubStrtoll : StrTo ℤ := fun errno text base =>
  let (negative, parsed) := parseInteger errno text base (llongMax.toNat + 1)
  if parsed.erange then ⟨if negative then llongMin else llongMax, parsed.rest, true⟩
  else if !negative && decide (llongMax.toNat < parsed.value) then ⟨llongMax, parsed.rest, true⟩
  else
    { value :=
        if negative then (if parsed.value = llongMax.toNat + 1 then llongMin else -(parsed.value : ℤ))
        else parsed.value
      rest := parsed.rest
      erange := parsed.erange }

/-! ## Digits -/

variable {base limit n value maximum : ℕ} {overflow errno : Bool} {text : Text} {c : Char}

theorem filter_decimalDigit (hbase : base ≤ 16) (c : Char) :
    (decimalDigit c).filter (· < base) = baseDigit base c := filter_hexDigit hbase c

/-- The unbounded value `n` in the variables of the loop: it is there, or it was too large. -/
def Reads (limit n value : ℕ) (overflow : Bool) : Prop :=
  (overflow = false ∧ value = n ∧ n ≤ limit) ∨ (overflow = true ∧ limit < n)

/-- **The loop reads the digits of the base and knows whether their value is above the limit.** -/
theorem digitLoop_spec (hbase : 2 ≤ base) (hbase' : base ≤ 16) (hlimit : 16 ≤ limit)
    (h : Reads limit n value overflow) :
    ∃ value' overflow', digitLoop base limit value overflow text =
        (value', overflow', (scanDigits (baseDigit base) base n text).2) ∧
      Reads limit (scanDigits (baseDigit base) base n text).1 value' overflow' := by
  induction text generalizing n value overflow with
  | nil => exact ⟨value, overflow, rfl, h⟩
  | cons c text ih =>
    rw [digitLoop, scanDigits, ← filter_decimalDigit hbase']
    cases hdigit : decimalDigit c with
    | none => exact ⟨value, overflow, rfl, h⟩
    | some digit =>
      rw [Option.elim_some]
      by_cases hlarge : base ≤ digit
      · rw [if_pos hlarge, Option.filter_some_neg (by simpa using hlarge)]
        exact ⟨value, overflow, rfl, h⟩
      · rw [if_neg hlarge, Option.filter_some_pos (by simpa using hlarge), Option.elim_some]
        have hdigit : digit < base := Nat.not_le.1 hlarge
        have hover : (limit - digit) / base < value ↔ limit < value * base + digit := by
          rw [Nat.div_lt_iff_lt_mul (by omega)]
          omega
        have hgrow : n ≤ n * base + digit := Nat.le_add_right_of_le (Nat.le_mul_of_pos_right n (by omega))
        rcases h with ⟨hflag, rfl, hle⟩ | ⟨hflag, hlt⟩
        · by_cases hnext : (limit - digit) / base < value
          · rw [if_pos hnext]
            exact ih (.inr ⟨rfl, hover.1 hnext⟩)
          · rw [if_neg hnext, hflag, Bool.not_false, if_pos rfl]
            exact ih (.inl ⟨rfl, rfl, Nat.not_lt.1 (mt hover.2 hnext)⟩)
        · have hstay : Reads limit (n * base + digit) value true := .inr ⟨rfl, hlt.trans_le hgrow⟩
          rw [hflag, Bool.not_true, if_neg Bool.false_ne_true, ite_self]
          exact ih hstay

/-! ## The conversions -/

/-- Printable ASCII, blanks and tabs. -/
def Plain (text : Text) : Prop := ∀ c ∈ text, c = '\t' ∨ (0x20 ≤ c.toNat ∧ c.toNat ≤ 0x7e)

instance (text : Text) : Decidable (Plain text) :=
  List.decidableBAll (fun c => c = '\t' ∨ (0x20 ≤ c.toNat ∧ c.toNat ≤ 0x7e)) text

theorem Plain.of_suffix {text' : Text} (h : Plain text) (hsuffix : text' <:+ text) : Plain text' :=
  fun c hc => h c (hsuffix.subset hc)

/-- The models and the C library skip the same characters of a plain text. -/
theorem Plain.dropWhile (h : Plain text) : text.dropWhile isStubSpace = text.dropWhile isCSpace := by
  induction text with
  | nil => rfl
  | cons c text ih =>
    obtain ⟨hc, htext⟩ := List.forall_mem_cons.1 h
    have hspace : isStubSpace c = isCSpace c := by
      rcases hc with rfl | ⟨hlow, -⟩
      · rfl
      · have hcontrol : ∀ d : Char, d.toNat < 32 → decide (c = d) = false := by
          intro d hd
          apply decide_eq_false
          rintro rfl
          omega
        rw [isStubSpace, isCSpace, hcontrol '\t' (by decide), hcontrol '\n' (by decide),
          hcontrol '\r' (by decide), decide_eq_false (p := c.toNat ≤ 13) (by omega), Bool.and_false,
          Bool.or_false, Bool.or_false, Bool.or_false]
    rw [List.dropWhile_cons, List.dropWhile_cons, hspace, ih htext]

/-- The text whose digits `parse_integer` reads. -/
def stubDigits (base : ℕ) (text : Text) : Text := if base = 16 then (stripHexPrefix text).getD text else text

/-- The prefix is skipped alike, unless no digit follows it. -/
theorem stubDigits_cases (base : ℕ) (text : Text) : stubDigits base text = skipHexPrefix base text ∨
    base = 16 ∧ (∃ x, (x = 'x' ∨ x = 'X') ∧ text = '0' :: x :: stubDigits base text) ∧
      (stubDigits base text).head?.bind (baseDigit 16) = none ∧ skipHexPrefix base text = text := by
  unfold stubDigits skipHexPrefix
  by_cases hbase : base = 16
  · rw [if_pos hbase, if_pos hbase]
    cases hprefix : stripHexPrefix text with
    | none => exact .inl rfl
    | some digits =>
      rw [Option.getD_some, Option.elim_some]
      cases hdigit : digits.head?.bind (baseDigit 16) with
      | none => exact .inr ⟨hbase, stripHexPrefix_eq_some hprefix, rfl, if_neg Bool.false_ne_true⟩
      | some d => exact .inl (if_pos rfl).symm
  · rw [if_neg hbase, if_neg hbase]
    exact .inl rfl

theorem parseInteger_eq (hbase : base ≠ 0) (hplain : Plain text) :
    parseInteger errno text base limit =
      let sign := takeSign (text.dropWhile isCSpace)
      let digits := stubDigits base sign.2
      let read := digitLoop base limit 0 false digits
      let rest := if read.2.2 = digits then text else read.2.2
      (sign.1, if read.2.1 then ⟨limit, rest, true⟩ else ⟨read.1, rest, errno⟩) := by
  rw [takeSign_eq, ← hplain.dropWhile]
  unfold parseInteger stubDigits
  simp only [if_neg hbase]

/-- **What `parse_integer` gives, next to the C standard's subject sequence**: nothing for both, the
same number, or the zero before an `x` is not read. -/
theorem parseInteger_cases (hbase : base = 10 ∨ base = 16) (hlimit : 16 ≤ limit) (hplain : Plain text) :
    (∃ negative, subject text base = none ∧
      parseInteger errno text base limit = (negative, ⟨0, text, errno⟩)) ∨
    (∃ negative magnitude rest, subject text base = some (negative, magnitude, rest) ∧
      parseInteger errno text base limit =
        (negative, if limit < magnitude then ⟨limit, rest, true⟩ else ⟨magnitude, rest, errno⟩)) ∨
    ∃ negative x rest, (x = 'x' ∨ x = 'X') ∧ subject text base = some (negative, 0, x :: rest) ∧
      parseInteger errno text base limit = (negative, ⟨0, text, errno⟩) := by
  rw [parseInteger_eq (by omega) hplain]
  unfold subject
  generalize takeSign (text.dropWhile isCSpace) = sign
  obtain ⟨negative, unsigned⟩ := sign
  dsimp only
  generalize hread : digitLoop base limit 0 false (stubDigits base unsigned) = read
  obtain ⟨value, overflow, hloop, hreads⟩ := @digitLoop_spec base limit 0 0 false
    (stubDigits base unsigned) (by omega) (by omega) hlimit (.inl ⟨rfl, rfl, Nat.zero_le _⟩)
  rw [hloop] at hread
  subst hread
  dsimp only
  rcases stubDigits_cases base unsigned with hsame | ⟨rfl, ⟨x, hx, hunsigned⟩, hnone, hskip⟩
  · rw [hsame] at hreads ⊢
    by_cases hrest : (scanDigits (baseDigit base) base 0 (skipHexPrefix base unsigned)).2 = skipHexPrefix base unsigned
    · left
      rw [scanDigits_eq_self hrest] at hreads ⊢
      rcases hreads with ⟨rfl, rfl, -⟩ | ⟨-, hlarge⟩
      · refine ⟨negative, if_pos rfl, ?_⟩
        rw [if_pos rfl, if_neg Bool.false_ne_true]
      · cases hlarge
    · right
      left
      refine ⟨negative, _, _, if_neg hrest, ?_⟩
      rw [if_neg hrest]
      rcases hreads with ⟨rfl, rfl, hle⟩ | ⟨rfl, hlt⟩
      · rw [if_neg Bool.false_ne_true, if_neg (Nat.not_lt.2 hle)]
      · rw [if_pos rfl, if_pos hlt]
  · right
    right
    generalize stubDigits 16 unsigned = rest at *
    subst hunsigned
    have hzero : scanDigits (baseDigit 16) 16 0 ('0' :: x :: rest) = (0, x :: rest) := by
      rcases hx with rfl | rfl
      · rfl
      · rfl
    refine ⟨negative, x, rest, hx, ?_, ?_⟩
    · rw [hskip, hzero]
      exact if_neg fun h => List.cons_ne_self _ _ h.symm
    · rw [scanDigits_of_head hnone] at hreads ⊢
      rcases hreads with ⟨rfl, rfl, -⟩ | ⟨-, hlarge⟩
      · rw [if_pos rfl, if_neg Bool.false_ne_true]
      · cases hlarge

/-- How a conversion of the models and one of the C library may differ: both are out of range, or
one reads nothing and the other only the zero before an `x`. -/
def Agree {α : Type} (text : Text) (stub standard : Conversion α) : Prop :=
  stub = standard ∨ (stub.erange = true ∧ standard.erange = true) ∨
    (stub.rest = text ∧ ∃ x rest, standard.rest = x :: rest ∧ (x = 'x' ∨ x = 'X'))

theorem strtoull_agree (hbase : base = 10 ∨ base = 16) (hplain : Plain text) (errno : Bool) :
    Agree text (stubStrtoull errno text base) (strtoull errno text base) := by
  unfold stubStrtoull strtoull
  rcases @parseInteger_cases base ullongMax errno text hbase (by decide) hplain with
    ⟨negative, hsubject, hparse⟩ | ⟨negative, magnitude, rest, hsubject, hparse⟩ |
      ⟨negative, x, rest, hx, hsubject, hparse⟩
  · rw [hsubject, hparse, Option.elim_none]
    left
    cases negative with
    | false => rfl
    | true => simp
  · rw [hsubject, hparse, Option.elim_some]
    by_cases hlarge : ullongMax < magnitude
    · simp only [if_pos hlarge]
      exact .inr (.inl ⟨rfl, rfl⟩)
    · simp only [if_neg hlarge]
      exact .inl rfl
  · rw [hsubject, hparse, Option.elim_some]
    refine .inr (.inr ⟨rfl, x, rest, ?_, hx⟩)
    dsimp only
    rw [if_neg (by decide)]

theorem llongMax_toNat : (llongMax.toNat : ℤ) = llongMax := rfl

theorem strtoll_agree (hbase : base = 10 ∨ base = 16) (hplain : Plain text) :
    Agree text (stubStrtoll false text base) (strtoll false text base) := by
  have hmin : llongMin = -(llongMax + 1) := rfl
  have hmax := llongMax_toNat
  unfold stubStrtoll strtoll
  rcases @parseInteger_cases base (llongMax.toNat + 1) false text hbase (by decide) hplain with
    ⟨negative, hsubject, hparse⟩ | ⟨negative, magnitude, rest, hsubject, hparse⟩ |
      ⟨negative, x, rest, hx, hsubject, hparse⟩
  · rw [hsubject, hparse, Option.elim_none]
    left
    cases negative with
    | false => rfl
    | true => rfl
  · rw [hsubject, hparse, Option.elim_some]
    by_cases hlarge : llongMax.toNat + 1 < magnitude
    · simp only [if_pos hlarge]
      refine .inr (.inl ⟨rfl, ?_⟩)
      cases negative with
      | false => rw [if_neg Bool.false_ne_true, if_pos (by omega)]
      | true => rw [if_pos rfl, if_neg (by omega), if_pos (by omega)]
    · simp only [if_neg hlarge, if_neg Bool.false_ne_true]
      cases negative with
      | false =>
        by_cases hrange : llongMax.toNat < magnitude
        · rw [Bool.not_false, decide_eq_true hrange, Bool.true_and, if_pos rfl, if_neg Bool.false_ne_true,
            if_pos (by omega)]
          exact .inr (.inl ⟨rfl, rfl⟩)
        · rw [decide_eq_false hrange, Bool.and_false, if_neg Bool.false_ne_true, if_neg Bool.false_ne_true,
            if_neg Bool.false_ne_true, if_neg (by omega), if_neg (by omega)]
          exact .inl rfl
      | true =>
        have hvalue : (if magnitude = llongMax.toNat + 1 then llongMin else -(magnitude : ℤ)) = -(magnitude : ℤ) := by
          split
          · omega
          · rfl
        rw [Bool.not_true, Bool.false_and, if_neg Bool.false_ne_true, if_pos rfl, if_pos rfl, hvalue,
          if_neg (by omega), if_neg (by omega)]
        exact .inl rfl
  · rw [hsubject, hparse, Option.elim_some]
    dsimp only
    have hzero : (if negative = true then -((0 : ℕ) : ℤ) else ((0 : ℕ) : ℤ)) = 0 := by
      cases negative with
      | false => rfl
      | true => rfl
    rw [hzero, if_neg Bool.false_ne_true, decide_eq_false (by omega), Bool.and_false, if_neg Bool.false_ne_true,
      if_neg (by decide : ¬ llongMax < 0), if_neg (by decide : ¬ (0 : ℤ) < llongMin)]
    exact .inr (.inr ⟨rfl, x, rest, rfl, hx⟩)

/-! ## The checked parsers -/

theorem numericEnd_cons_x {x : Char} {rest : Text} (hx : x = 'x' ∨ x = 'X') : numericEnd (x :: rest) = false := by
  rcases hx with rfl | rfl
  · rfl
  · rfl

theorem baseOf_cases (digits : Text) : baseOf digits = 10 ∨ baseOf digits = 16 := by
  unfold baseOf
  split
  · exact .inr rfl
  · exact .inl rfl

theorem Plain.skipSpaces (h : Plain text) : Plain (skipSpaces text) := h.of_suffix (List.dropWhile_suffix _)

theorem Plain.tail (h : Plain text) : Plain text.tail := h.of_suffix (List.tail_suffix _)

/-- **Unsigned values are read alike** with the conversion of the models and of the C library. -/
theorem parseUnsignedChecked_stub (hplain : Plain text) (maximum : ℕ) :
    parseUnsignedChecked stubStrtoull text maximum = parseUnsignedChecked strtoull text maximum := by
  unfold parseUnsignedChecked
  dsimp only
  split
  · rfl
  · generalize hstart : (if (Harness.skipSpaces text).head? = some '+' then (Harness.skipSpaces text).tail
      else Harness.skipSpaces text) = start
    have hstart : Plain start := by
      rw [← hstart]
      split
      · exact hplain.skipSpaces.tail
      · exact hplain.skipSpaces
    rcases strtoull_agree (baseOf_cases start) hstart false with heq | ⟨hstub, hstandard⟩ | ⟨hrest, x, rest, heq, hx⟩
    · rw [heq]
    · rw [if_pos (.inl hstub), if_pos (.inl hstandard)]
    · rw [if_pos (.inr (.inl hrest)), if_pos (.inr (.inr (.inl (heq ▸ numericEnd_cons_x hx))))]

theorem parseSignedChecked_stub (hplain : Plain text) (minimum maximum : ℤ) :
    parseSignedChecked stubStrtoll text minimum maximum = parseSignedChecked strtoll text minimum maximum := by
  unfold parseSignedChecked
  dsimp only
  split
  · rfl
  · generalize (if (Harness.skipSpaces text).head? = some '-' ∨ (Harness.skipSpaces text).head? = some '+' then
      (Harness.skipSpaces text).tail else Harness.skipSpaces text) = digits
    rcases strtoll_agree (baseOf_cases digits) hplain.skipSpaces with heq | ⟨hstub, hstandard⟩ | ⟨hrest, x, rest, heq, hx⟩
    · rw [heq]
    · rw [if_pos (.inl hstub), if_pos (.inl hstandard)]
    · rw [if_pos (.inr (.inl hrest)), if_pos (.inr (.inr (.inl (heq ▸ numericEnd_cons_x hx))))]

/-- **The checked parsers give the same verdict and the same value** with the conversions of the
models as with those of the C library. -/
theorem parseChecked_stub (text : Text) (hplain : Plain text) :
    (∀ maximum, parseUnsignedChecked stubStrtoull text maximum = parseUnsignedChecked strtoull text maximum) ∧
      ∀ minimum maximum, parseSignedChecked stubStrtoll text minimum maximum =
        parseSignedChecked strtoll text minimum maximum :=
  ⟨parseUnsignedChecked_stub hplain, parseSignedChecked_stub hplain⟩

/-- The smallest value above the unsigned range. -/
theorem parseChecked_stub_aboveRange :
    (∀ maximum, parseUnsignedChecked stubStrtoull "18446744073709551616".toList maximum =
        parseUnsignedChecked strtoull "18446744073709551616".toList maximum) ∧
      ∀ minimum maximum, parseSignedChecked stubStrtoll "18446744073709551616".toList minimum maximum =
        parseSignedChecked strtoll "18446744073709551616".toList minimum maximum := by
  apply parseChecked_stub
  simp [Plain]

end SemantiST.Symbolic
