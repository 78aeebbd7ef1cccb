import Mathlib.Data.List.DropRight
import Mathlib.Data.Nat.Digits.Defs
import Mathlib.Tactic.Tauto

/-!
# Texts as lists of characters

Trimming, cutting at a separator, cutting into lines and reading numbers.  Everything is
structural recursion on the list of characters, so a text can be parsed by evaluation.
-/

namespace SemantiST.Lib

/-- A text, as the list of its Unicode scalar values. -/
abbrev Text := List Char

instance : LawfulBEq Text := inferInstance

/-- Literals are their lists of characters. -/
theorem map_toList_ofList (ls : List (List Char)) : (ls.map String.ofList).map String.toList = ls := by simp

/-! ## Classes of characters -/

theorem isUpper_range {c : Char} (h : c.isUpper = true) : 65 ≤ c.toNat ∧ c.toNat ≤ 90 :=
  of_decide_eq_true h

theorem isLower_range {c : Char} (h : c.isLower = true) : 97 ≤ c.toNat ∧ c.toNat ≤ 122 :=
  (Bool.and_eq_true_iff.1 h).imp of_decide_eq_true of_decide_eq_true

theorem isDigit_range {c : Char} (h : c.isDigit = true) : 48 ≤ c.toNat ∧ c.toNat ≤ 57 :=
  (Bool.and_eq_true_iff.1 h).imp of_decide_eq_true of_decide_eq_true

theorem isAlpha_cases {c : Char} (h : c.isAlpha = true) : c.isUpper = true ∨ c.isLower = true :=
  (Bool.or_eq_true _ _).mp h

/-! ## Trimming -/

section Trim

variable {ws ws' : Char → Bool} {s : Text}

/-- The text without the characters of `ws` at its two ends. -/
def trim (ws : Char → Bool) (s : Text) : Text := (s.dropWhile ws).rdropWhile ws

/-- A text that trimming leaves alone: no character of `ws` at either end. -/
def Trimmed (ws : Char → Bool) (s : Text) : Prop :=
  (∀ c ∈ s.head?, ws c = false) ∧ ∀ c ∈ s.getLast?, ws c = false

instance (ws : Char → Bool) (s : Text) : Decidable (Trimmed ws s) :=
  decidable_of_iff (s.head?.all (!ws ·) = true ∧ s.getLast?.all (!ws ·) = true) (by
    simp [Trimmed, Option.all_eq_true])

/-- What trimming removes, at both ends. -/
theorem trim_decomp (ws : Char → Bool) (s : Text) :
    ∃ a b, s = a ++ trim ws s ++ b ∧ (∀ c ∈ a, ws c = true) ∧ ∀ c ∈ b, ws c = true := by
  refine ⟨s.takeWhile ws, (s.dropWhile ws).rtakeWhile ws, ?_, ?_, ?_⟩
  · rw [trim, List.append_assoc, List.rdropWhile_append_rtakeWhile, List.takeWhile_append_dropWhile]
  · exact fun c hc => List.mem_takeWhile_imp hc
  · exact fun c hc => List.mem_rtakeWhile_imp hc

theorem mem_of_mem_trim {c : Char} (h : c ∈ trim ws s) : c ∈ s := by
  obtain ⟨a, b, hs, -, -⟩ := trim_decomp ws s
  rw [hs]
  exact List.mem_append_left _ (List.mem_append_right _ h)

theorem trim_of_trimmed (h : Trimmed ws s) : trim ws s = s := by
  have hd : s.dropWhile ws = s := by
    cases s with
    | nil => rfl
    | cons c s => simp [h.1 c (by simp)]
  rw [trim, hd, List.rdropWhile_eq_self_iff]
  intro hl
  simp [h.2 (s.getLast hl) (List.getLast?_eq_getLast_of_ne_nil hl)]

theorem trimmed_trim (ws : Char → Bool) (s : Text) : Trimmed ws (trim ws s) := by
  constructor
  · intro c hc
    have hpre : trim ws s <+: s.dropWhile ws := List.rdropWhile_prefix _ _
    obtain ⟨t, ht⟩ := hpre
    have hhead : c ∈ (s.dropWhile ws).head? := by
      rw [← ht]
      cases hx : trim ws s with
      | nil => rw [hx] at hc; simp at hc
      | cons d r => rw [hx] at hc; simpa using hc
    have := List.head?_dropWhile_not ws s
    rw [hhead] at this
    simpa using this
  · intro c hc
    have hne : (s.dropWhile ws).rdropWhile ws ≠ [] := by
      intro h0
      rw [trim, h0] at hc
      simp at hc
    have hlast := List.rdropWhile_last_not ws (s.dropWhile ws) hne
    have : c = ((s.dropWhile ws).rdropWhile ws).getLast hne := by
      rw [trim, List.getLast?_eq_getLast_of_ne_nil hne] at hc
      simpa using hc.symm
    rw [this]
    simpa using hlast

theorem trim_trim : trim ws (trim ws s) = trim ws s := trim_of_trimmed (trimmed_trim ws s)

/-- Trimming a smaller class afterwards changes nothing. -/
theorem Trimmed.mono (h : Trimmed ws' s) (hle : ∀ c, ws c = true → ws' c = true) : Trimmed ws s := by
  have key : ∀ c, ws' c = false → ws c = false := by
    intro c hc
    by_contra hw
    rw [Bool.not_eq_false] at hw
    rw [hle c hw] at hc
    exact Bool.noConfusion hc
  exact ⟨fun c hc => key c (h.1 c hc), fun c hc => key c (h.2 c hc)⟩

theorem trimmed_of_forall (h : ∀ c ∈ s, ws c = false) : Trimmed ws s :=
  ⟨fun c hc => h c (List.mem_of_mem_head? hc), fun c hc => h c (List.mem_of_mem_getLast? hc)⟩

/-- Trimming keeps a first character that is not in the class. -/
theorem head?_trim {c : Char} (h : ws c = false) : (trim ws (c :: s)).head? = some c := by
  have hd : (c :: s).dropWhile ws = c :: s := by simp [h]
  rw [trim, hd]
  obtain ⟨t, ht⟩ : (c :: s).rdropWhile ws <+: c :: s := List.rdropWhile_prefix _ _
  cases hr : (c :: s).rdropWhile ws with
  | nil =>
    rw [List.rdropWhile_eq_nil_iff] at hr
    rw [hr c List.mem_cons_self] at h
    cases h
  | cons d r =>
    rw [hr] at ht
    simpa using (List.cons.inj ht).1

end Trim

/-! ## Cutting at the first separator -/

section SplitOnce

variable {sep : Char} {s a b : Text}

/-- The text before and the text after the first `sep`. -/
def splitOnce (sep : Char) : Text → Option (Text × Text)
  | [] => none
  | c :: s => if c = sep then some ([], s) else (splitOnce sep s).map fun p => (c :: p.1, p.2)

theorem splitOnce_append (h : sep ∉ a) : splitOnce sep (a ++ sep :: b) = some (a, b) := by
  induction a with
  | nil => simp [splitOnce]
  | cons c a ih =>
    simp only [List.mem_cons, not_or] at h
    simp [splitOnce, Ne.symm h.1, ih h.2]

theorem splitOnce_eq_none_iff : splitOnce sep s = none ↔ sep ∉ s := by
  induction s with
  | nil => simp [splitOnce]
  | cons c s ih =>
    by_cases h : c = sep
    · simp [splitOnce, h]
    · simp [splitOnce, h, ih, Ne.symm h]

theorem splitOnce_eq_some_iff : splitOnce sep s = some (a, b) ↔ s = a ++ sep :: b ∧ sep ∉ a := by
  constructor
  · intro h
    induction s generalizing a with
    | nil => simp [splitOnce] at h
    | cons c s ih =>
      by_cases hc : c = sep
      · simp only [splitOnce, hc, if_true, Option.some.injEq, Prod.mk.injEq] at h
        obtain ⟨rfl, rfl⟩ := h
        simp [hc]
      · simp only [splitOnce, hc, if_false, Option.map_eq_some_iff, Prod.exists, Prod.mk.injEq] at h
        obtain ⟨a', b', hab, rfl, rfl⟩ := h
        obtain ⟨rfl, ha⟩ := ih hab
        simp [ha, Ne.symm hc]
  · rintro ⟨rfl, h⟩
    exact splitOnce_append h

end SplitOnce

/-! ## Lines -/

section Lines

/-- The pieces of a text, each but the last ending with the character `sep` that closes it. -/
def splitInclusive (sep : Char) : Text → List Text
  | [] => []
  | c :: s =>
    if c = sep then [c] :: splitInclusive sep s
    else
      match splitInclusive sep s with
      | [] => [[c]]
      | l :: ls => (c :: l) :: ls

/-- The pieces of a text between the characters of `brk`, without an empty last piece. -/
def pieces (brk : Char → Bool) : Text → List Text
  | [] => []
  | c :: s =>
    if brk c then [] :: pieces brk s
    else
      match pieces brk s with
      | [] => [[c]]
      | l :: ls => (c :: l) :: ls

/-- The text without its last character, when that is `c`. -/
def stripSuffix (c : Char) (s : Text) : Option Text :=
  if s.getLast? = some c then some s.dropLast else none

/-- The text of the given lines, each closed by a line feed. -/
def unlines (ls : List Text) : Text := ls.flatMap fun l => l ++ ['\n']

variable {sep : Char} {brk : Char → Bool} {l r : Text} {ls : List Text}

@[simp] theorem unlines_nil : unlines [] = [] := rfl

@[simp] theorem unlines_cons : unlines (l :: ls) = l ++ '\n' :: unlines ls := by simp [unlines]

theorem stripSuffix_concat {c : Char} : stripSuffix c (l ++ [c]) = some l := by simp [stripSuffix]

theorem splitInclusive_append (h : sep ∉ l) :
    splitInclusive sep (l ++ sep :: r) = (l ++ [sep]) :: splitInclusive sep r := by
  induction l with
  | nil => simp [splitInclusive]
  | cons c l ih =>
    simp only [List.mem_cons, not_or] at h
    simp [splitInclusive, Ne.symm h.1, ih h.2]

/-- A piece ends where it meets `sep`, or with the text. -/
theorem mem_splitInclusive {s : Text} (h : l ∈ splitInclusive sep s) :
    ∃ body, sep ∉ body ∧ (l = body ∨ l = body ++ [sep]) := by
  induction s generalizing l with
  | nil => simp [splitInclusive] at h
  | cons c s ih =>
    unfold splitInclusive at h
    split at h
    · rename_i hc
      rcases List.mem_cons.1 h with rfl | h
      · exact ⟨[], by simp, .inr (by simp [hc])⟩
      · exact ih h
    · rename_i hc
      split at h
      · rw [List.mem_singleton] at h
        exact ⟨[c], by simpa using Ne.symm hc, .inl h⟩
      · rename_i k ks hks
        rcases List.mem_cons.1 h with rfl | h
        · obtain ⟨body, hbody, hk⟩ := ih (l := k) (by rw [hks]; simp)
          refine ⟨c :: body, by simp [Ne.symm hc, hbody], ?_⟩
          rcases hk with rfl | rfl
          · exact .inl rfl
          · exact .inr rfl
        · exact ih (by rw [hks]; simp [h])

/-- A piece holds characters of the text. -/
theorem mem_of_mem_splitInclusive {s : Text} {c : Char} (h : l ∈ splitInclusive sep s) (hc : c ∈ l) :
    c ∈ s := by
  have hflatten : ∀ s : Text, (splitInclusive sep s).flatten = s := by
    intro s
    induction s with
    | nil => rfl
    | cons d s ih =>
      unfold splitInclusive
      split
      · simp [ih]
      · cases hs : splitInclusive sep s with
        | nil => simpa [hs] using ih
        | cons k ks => simpa [hs] using ih
  rw [← hflatten s]
  exact List.mem_flatten.2 ⟨l, h, hc⟩

end Lines

/-! ## ASCII case -/

/-- Equality of texts that ignores the case of ASCII letters. -/
def eqIgnoreAsciiCase (a b : Text) : Bool := a.map Char.toLower == b.map Char.toLower

/-- The text with its ASCII letters in upper case. -/
def toAsciiUppercase (s : Text) : Text := s.map Char.toUpper

section Case

variable {a b c : Text} {x y : Char}

theorem toNat_toUpper (x : Char) :
    x.toUpper.toNat = if 97 ≤ x.toNat ∧ x.toNat ≤ 122 then x.toNat - 32 else x.toNat := by
  have hx : (97 ≤ x.toNat ∧ x.toNat ≤ 122) ↔ ('a'.val ≤ x.val ∧ x.val ≤ 'z'.val) := Iff.rfl
  unfold Char.toUpper
  split
  · rename_i h
    rw [if_pos (hx.2 h)]
    change (x.val + ('A'.val - 'a'.val)).toNat = _
    have h' := hx.2 h
    have hn : x.val.toNat = x.toNat := rfl
    have hdiff : ('A'.val - 'a'.val).toNat = 2 ^ 32 - 32 := by decide
    rw [UInt32.toNat_add, hn]
    omega
  · rename_i h
    rw [if_neg fun h' => h (hx.1 h')]

theorem toNat_toLower (x : Char) :
    x.toLower.toNat = if 65 ≤ x.toNat ∧ x.toNat ≤ 90 then x.toNat + 32 else x.toNat := by
  have hx : (65 ≤ x.toNat ∧ x.toNat ≤ 90) ↔ (x.val ≥ 'A'.val ∧ x.val ≤ 'Z'.val) := Iff.rfl
  delta Char.toLower
  split
  · rename_i h
    rw [if_pos (hx.2 h)]
    change (x.val + ('a'.val - 'A'.val)).toNat = _
    have h' := hx.2 h
    have hn : x.val.toNat = x.toNat := rfl
    have hdiff : ('a'.val - 'A'.val).toNat = 32 := by decide
    rw [UInt32.toNat_add, hn]
    omega
  · rename_i h
    rw [if_neg fun h' => h (hx.1 h')]

theorem toUpper_eq_iff : x.toUpper = y.toUpper ↔ x.toLower = y.toLower := by
  rw [← Char.toNat_inj, ← Char.toNat_inj, toNat_toUpper, toNat_toUpper, toNat_toLower, toNat_toLower]
  split <;> split <;> split <;> split <;> omega

@[simp] theorem eqIgnoreAsciiCase_self (a : Text) : eqIgnoreAsciiCase a a = true := by
  simp [eqIgnoreAsciiCase]

theorem eqIgnoreAsciiCase_iff : eqIgnoreAsciiCase a b = true ↔ a.map Char.toLower = b.map Char.toLower := by
  simp [eqIgnoreAsciiCase]

theorem eqIgnoreAsciiCase_symm (h : eqIgnoreAsciiCase a b = true) : eqIgnoreAsciiCase b a = true := by
  rw [eqIgnoreAsciiCase_iff] at *
  exact h.symm

theorem eqIgnoreAsciiCase_trans (h : eqIgnoreAsciiCase a b = true) (h' : eqIgnoreAsciiCase b c = true) :
    eqIgnoreAsciiCase a c = true := by
  rw [eqIgnoreAsciiCase_iff] at *
  exact h.trans h'

theorem eqIgnoreAsciiCase_iff_upper :
    eqIgnoreAsciiCase a b = true ↔ toAsciiUppercase a = toAsciiUppercase b := by
  rw [eqIgnoreAsciiCase_iff]
  unfold toAsciiUppercase
  induction a generalizing b with
  | nil => cases b <;> simp
  | cons x a ih =>
    cases b with
    | nil => simp
    | cons y b => simp [ih, toUpper_eq_iff]

/-- A character that is no letter is in both texts or in none. -/
theorem mem_of_eqIgnoreAsciiCase (h : eqIgnoreAsciiCase a b = true)
    (hx : ¬(65 ≤ x.toNat ∧ x.toNat ≤ 90) ∧ ¬(97 ≤ x.toNat ∧ x.toNat ≤ 122)) (hmem : x ∈ a) :
    x ∈ b := by
  have hlower : x.toLower ∈ b.map Char.toLower := by
    rw [← eqIgnoreAsciiCase_iff.1 h]
    exact List.mem_map_of_mem hmem
  obtain ⟨y, hy, hyx⟩ := List.mem_map.1 hlower
  rw [← Char.toNat_inj, toNat_toLower, toNat_toLower, if_neg hx.1] at hyx
  have hxy : y = x := by
    rw [← Char.toNat_inj]
    split at hyx <;> omega
  rwa [← hxy]

end Case

/-! ## Numbers -/

section Numbers

variable {base n : ℕ} {s : Text}

/-- The value of an ASCII decimal digit. -/
def decDigit (c : Char) : Option ℕ := if c.isDigit then some (c.toNat - '0'.toNat) else none

/-- The value of an ASCII hexadecimal digit. -/
def hexDigit (c : Char) : Option ℕ :=
  if c.isDigit then some (c.toNat - '0'.toNat)
  else if 'a' ≤ c ∧ c ≤ 'f' then some (c.toNat - 'a'.toNat + 10)
  else if 'A' ≤ c ∧ c ≤ 'F' then some (c.toNat - 'A'.toNat + 10)
  else none

/-- The digits of `s` in the given base, read after the value `n`. -/
def readDigits (digit : Char → Option ℕ) (base : ℕ) : ℕ → Text → Option ℕ
  | n, [] => some n
  | n, c :: s => (digit c).bind fun d => readDigits digit base (base * n + d) s

/-- The number a non-empty text of digits spells. -/
def readNumber (digit : Char → Option ℕ) (base : ℕ) (s : Text) : Option ℕ :=
  if s = [] then none else readDigits digit base 0 s

/-- What follows `0x` or `0X`. -/
def stripHexPrefix : Text → Option Text
  | '0' :: 'x' :: rest => some rest
  | '0' :: 'X' :: rest => some rest
  | _ => none

/-- The decimal numeral of `n`. -/
def decimal (n : ℕ) : Text := Nat.toDigits 10 n

theorem readDigits_isDigit (h : ∀ c ∈ s, c.isDigit = true) (n : ℕ) :
    readDigits decDigit 10 n s = some (Nat.ofDigitChars 10 s n) := by
  induction s generalizing n with
  | nil => rfl
  | cons c s ih =>
    simp only [List.mem_cons, forall_eq_or_imp] at h
    simp [readDigits, decDigit, h.1, ih h.2, Nat.ofDigitChars_cons]

theorem isDigit_of_mem_decimal {c : Char} (h : c ∈ decimal n) : c.isDigit = true :=
  Nat.isDigit_of_mem_toDigits (by omega) (by omega) h

theorem decimal_ne_nil : decimal n ≠ [] := Nat.toDigits_ne_nil

/-- **A decimal numeral reads back.** -/
theorem readNumber_decimal (n : ℕ) : readNumber decDigit 10 (decimal n) = some n := by
  rw [readNumber, if_neg decimal_ne_nil, readDigits_isDigit fun c => isDigit_of_mem_decimal]
  exact congrArg some Nat.ofDigitChars_ten_toDigits

theorem decimal_injective : Function.Injective decimal := by
  intro m n h
  have hread := readNumber_decimal m
  rw [h, readNumber_decimal] at hread
  exact (Option.some.inj hread).symm

theorem decDigit_isSome {c : Char} : (decDigit c).isSome = c.isDigit := by
  unfold decDigit
  split <;> simp_all

/-- A text that spells a number has digits only, and some. -/
theorem isSome_of_readNumber {digit : Char → Option ℕ} (h : readNumber digit base s = some n) :
    s ≠ [] ∧ ∀ c ∈ s, (digit c).isSome := by
  unfold readNumber at h
  split at h
  · cases h
  · rename_i hne
    refine ⟨hne, ?_⟩
    clear hne
    generalize 0 = m at h
    induction s generalizing m with
    | nil => simp
    | cons c s ih =>
      obtain ⟨d, hd, hs⟩ := Option.bind_eq_some_iff.1 h
      intro c' hc'
      rcases List.mem_cons.1 hc' with rfl | hc'
      · rw [hd]
        rfl
      · exact ih _ hs c' hc'

theorem isDigit_of_readNumber (h : readNumber decDigit 10 s = some n) :
    s ≠ [] ∧ ∀ c ∈ s, c.isDigit = true := by
  obtain ⟨hne, hs⟩ := isSome_of_readNumber h
  exact ⟨hne, fun c hc => decDigit_isSome.symm.trans (hs c hc)⟩

end Numbers

end SemantiST.Lib
