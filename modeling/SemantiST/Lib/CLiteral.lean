import SemantiST.Lib.CNumber

/-!
# Literals the C library reads

`strtoull` and `strtoll` on a text that ends with spaces: they read all of it up to these exactly
where it is a literal of the base.
-/

namespace SemantiST.Lib

variable {digit : Char → Option ℕ} {base n m v : ℕ} {c : Char} {s ds text body trail rest : Text}

/-! ## Digits -/

theorem baseDigit_ten (c : Char) : baseDigit 10 c = decDigit c := by
  unfold baseDigit alphaDigit decDigit
  split
  · rename_i hdigit
    have hrange := isDigit_range hdigit
    have hzero : '0'.toNat = 48 := rfl
    rw [Option.filter_some, if_pos (by simp; omega)]
  · split
    · simp
    · split <;> simp

theorem hexDigit_lt {d : ℕ} (h : hexDigit c = some d) : d < 16 := by
  unfold hexDigit at h
  have hzero : '0'.toNat = 48 := rfl
  split at h
  · rename_i hdigit
    have hrange := isDigit_range hdigit
    obtain rfl := Option.some.inj h
    omega
  · split at h
    · rename_i hrange
      have hlow : 97 ≤ c.toNat := hrange.1
      have hhigh : c.toNat ≤ 102 := hrange.2
      have ha : 'a'.toNat = 97 := rfl
      obtain rfl := Option.some.inj h
      omega
    · split at h
      · rename_i hrange
        have hlow : 65 ≤ c.toNat := hrange.1
        have hhigh : c.toNat ≤ 70 := hrange.2
        have ha : 'A'.toNat = 65 := rfl
        obtain rfl := Option.some.inj h
        omega
      · cases h

theorem baseDigit_sixteen (c : Char) : baseDigit 16 c = hexDigit c := by
  rw [← filter_hexDigit le_rfl]
  cases h : hexDigit c with
  | none => rfl
  | some d => exact Option.filter_some_pos (decide_eq_true (hexDigit_lt h))

/-- Digits up to a character that is none. -/
theorem scanDigits_append (h : readDigits digit base n ds = some v) (hrest : rest.head?.bind digit = none) :
    scanDigits digit base n (ds ++ rest) = (v, rest) := by
  induction ds generalizing n with
  | nil =>
    obtain rfl := Option.some.inj h
    exact scanDigits_of_head hrest
  | cons c ds ih =>
    obtain ⟨d, hd, h⟩ := Option.bind_eq_some_iff.1 h
    rw [List.cons_append, scanDigits, hd, Option.elim_some, Nat.mul_comm]
    exact ih h

/-- What is read are digits, and no digit follows. -/
theorem scanDigits_spec (digit : Char → Option ℕ) (base n : ℕ) (text : Text) :
    ∃ ds, text = ds ++ (scanDigits digit base n text).2 ∧
      readDigits digit base n ds = some (scanDigits digit base n text).1 := by
  induction text generalizing n with
  | nil => exact ⟨[], rfl, rfl⟩
  | cons c text ih =>
    rw [scanDigits]
    cases hd : digit c with
    | none => exact ⟨[], rfl, rfl⟩
    | some d =>
      obtain ⟨ds, htext, hread⟩ := ih (n * base + d)
      refine ⟨c :: ds, congrArg (c :: ·) htext, ?_⟩
      rw [readDigits, hd, Option.bind_some, Nat.mul_comm base n]
      exact hread

/-! ## The number after the sign -/

/-- The magnitude at the head of a text without a sign, and what follows it. -/
def magnitudeAt (base : ℕ) (unsigned : Text) : Option (ℕ × Text) :=
  let digits := skipHexPrefix base unsigned
  let scanned := scanDigits (baseDigit base) base 0 digits
  if scanned.2 = digits then none else some scanned

theorem subject_eq (text : Text) (base : ℕ) : subject text base =
    (magnitudeAt base (takeSign (text.dropWhile isCSpace)).2).map fun p =>
      ((takeSign (text.dropWhile isCSpace)).1, p) := by
  rw [subject, magnitudeAt]
  dsimp only
  split <;> rfl

/-- The number a literal without a sign spells: decimal digits, or in base 16 digits after `0x`. -/
def literalMagnitude (base : ℕ) (body : Text) : Option ℕ :=
  if base = 16 then (stripHexPrefix body).bind (readNumber hexDigit 16) else readNumber decDigit 10 body

/-- A text of digits before spaces is all that is read. -/
theorem append_inj_of_space {space : Char → Bool} (h : body ++ trail = ds ++ rest)
    (hbody : ∀ c ∈ body.getLast?, space c = false) (htrail : ∀ c ∈ trail, space c = true)
    (hds : ∀ c ∈ ds, space c = false) (hrest : ∀ c ∈ rest, space c = true) : body = ds ∧ trail = rest := by
  rcases List.append_eq_append_iff.1 h with ⟨more, rfl, rfl⟩ | ⟨more, rfl, rfl⟩
  · cases more with
    | nil => exact ⟨(List.append_nil body).symm, rfl⟩
    | cons c more =>
      have hspace := htrail c (List.mem_cons_self)
      rw [hds c (List.mem_append_right _ List.mem_cons_self)] at hspace
      cases hspace
  · cases more with
    | nil => exact ⟨List.append_nil ds, rfl⟩
    | cons c more =>
      have hlast : (ds ++ c :: more).getLast? = some ((c :: more).getLast (List.cons_ne_nil _ _)) := by
        rw [List.getLast?_append_of_ne_nil _ (List.cons_ne_nil _ _), List.getLast?_eq_getLast_of_ne_nil]
      have hspace := hrest _ (List.mem_append_left trail (List.getLast_mem (List.cons_ne_nil c more)))
      rw [hbody _ hlast] at hspace
      cases hspace

section Spaces

variable {space : Char → Bool}

theorem readDigits_isSome (h : readDigits digit base n ds = some v) : ∀ c ∈ ds, (digit c).isSome = true := by
  induction ds generalizing n with
  | nil => exact fun c hc => nomatch hc
  | cons c ds ih =>
    obtain ⟨d, hd, h⟩ := Option.bind_eq_some_iff.1 h
    intro c' hc'
    rcases List.mem_cons.1 hc' with rfl | hc'
    · rw [hd]
      rfl
    · exact ih h c' hc'

/-- What is scanned before spaces is the whole body. -/
theorem scanDigits_iff (hdigits : ∀ c, (digit c).isSome = true → space c = false)
    (hbody : ∀ c ∈ body.getLast?, space c = false) (htrail : ∀ c ∈ trail, space c = true)
    (hrest : ∀ c ∈ rest, space c = true) :
    scanDigits digit base 0 (body ++ trail) = (n, rest) ∧ rest ≠ body ++ trail ↔
      rest = trail ∧ readNumber digit base body = some n := by
  constructor
  · rintro ⟨h, hne⟩
    obtain ⟨ds, htext, hread⟩ := scanDigits_spec digit base 0 (body ++ trail)
    rw [h] at htext hread
    have hds : ∀ c ∈ ds, space c = false := fun c hc => hdigits c (readDigits_isSome hread c hc)
    obtain ⟨rfl, rfl⟩ := append_inj_of_space htext hbody htrail hds hrest
    refine ⟨rfl, ?_⟩
    rw [readNumber, if_neg, hread]
    rintro rfl
    exact hne rfl
  · rintro ⟨rfl, hread⟩
    obtain ⟨hne, -⟩ := isSome_of_readNumber hread
    rw [readNumber, if_neg hne] at hread
    refine ⟨scanDigits_append hread ?_, fun h => hne (List.self_eq_append_left.1 h)⟩
    cases rest with
    | nil => rfl
    | cons c rest =>
      cases hd : digit c with
      | none => exact hd
      | some d =>
        have hspace := htrail c List.mem_cons_self
        rw [hdigits c (by rw [hd]; rfl)] at hspace
        cases hspace

/-- **In base 10 exactly a decimal literal is read up to the spaces.** -/
theorem magnitudeAt_ten_iff (hdigits : ∀ c, (hexDigit c).isSome = true → space c = false)
    (hbody : ∀ c ∈ body.getLast?, space c = false) (htrail : ∀ c ∈ trail, space c = true)
    (hrest : ∀ c ∈ rest, space c = true) :
    magnitudeAt 10 (body ++ trail) = some (n, rest) ↔ rest = trail ∧ readNumber decDigit 10 body = some n := by
  have hten : baseDigit 10 = decDigit := funext baseDigit_ten
  have hdecimal : ∀ c, (decDigit c).isSome = true → space c = false := by
    intro c hc
    apply hdigits
    rw [decDigit_isSome] at hc
    rw [hexDigit, if_pos hc]
    rfl
  have hskip : skipHexPrefix 10 (body ++ trail) = body ++ trail := rfl
  rw [← scanDigits_iff hdecimal hbody htrail hrest, magnitudeAt, hskip, hten]
  constructor
  · intro h
    split at h
    · cases h
    · rename_i hne
      rw [Option.some.inj h] at hne
      exact ⟨Option.some.inj h, hne⟩
  · rintro ⟨h, hne⟩
    rw [h, if_neg hne]

/-- **In base 16 exactly digits after the prefix are read up to the spaces.** -/
theorem magnitudeAt_sixteen_iff (hdigits : ∀ c, (hexDigit c).isSome = true → space c = false)
    (hx : space 'x' = false ∧ space 'X' = false) (hbody : ∀ c ∈ body.getLast?, space c = false)
    (htrail : ∀ c ∈ trail, space c = true) (hrest : ∀ c ∈ rest, space c = true) {hex : Text}
    (hbodyStrip : stripHexPrefix body = some hex) :
    magnitudeAt 16 (body ++ trail) = some (n, rest) ↔ rest = trail ∧ readNumber hexDigit 16 hex = some n := by
  obtain ⟨x, hxs, rfl⟩ := stripHexPrefix_eq_some hbodyStrip
  have hsixteen : baseDigit 16 = hexDigit := funext baseDigit_sixteen
  have hstrip : stripHexPrefix ('0' :: x :: (hex ++ trail)) = some (hex ++ trail) := by
    rcases hxs with rfl | rfl <;> rfl
  have hlast : ∀ c ∈ hex.getLast?, space c = false := by
    intro c hc
    apply hbody
    cases hex with
    | nil => cases hc
    | cons d hex => exact hc
  rw [magnitudeAt, List.cons_append, List.cons_append, skipHexPrefix, if_pos rfl, hstrip, Option.elim_some, hsixteen,
    ← scanDigits_iff hdigits hlast htrail hrest]
  by_cases hhead : ((hex ++ trail).head?.bind hexDigit).isSome = true
  · rw [if_pos hhead]
    constructor
    · intro h
      split at h
      · cases h
      · rename_i hne
        rw [Option.some.inj h] at hne
        exact ⟨Option.some.inj h, hne⟩
    · rintro ⟨h, hne⟩
      rw [h, if_neg hne]
  · rw [if_neg hhead]
    have hnone : (hex ++ trail).head?.bind hexDigit = none := by simpa using hhead
    have hxdigit : hexDigit x = none := by rcases hxs with rfl | rfl <;> rfl
    have hscan : scanDigits hexDigit 16 0 ('0' :: x :: (hex ++ trail)) = (0, x :: (hex ++ trail)) := by
      rw [scanDigits, show hexDigit '0' = some 0 from rfl, Option.elim_some]
      exact scanDigits_of_head hxdigit
    rw [hscan, scanDigits_of_head hnone]
    constructor
    · intro h
      dsimp only at h
      split at h
      · cases h
      · obtain ⟨-, rfl⟩ := Prod.mk.inj (Option.some.inj h)
        have hspace := hrest x List.mem_cons_self
        rcases hxs with rfl | rfl
        · rw [hx.1] at hspace
          cases hspace
        · rw [hx.2] at hspace
          cases hspace
    · rintro ⟨h, hne⟩
      exact absurd (Prod.mk.inj h).2.symm hne

end Spaces

/-! ## Signs and spaces before a literal -/

theorem takeSign_append (hs : s ≠ []) (t : Text) :
    takeSign (s ++ t) = ((takeSign s).1, (takeSign s).2 ++ t) := by
  cases s with
  | nil => exact absurd rfl hs
  | cons c s =>
    rw [takeSign_eq, takeSign_eq, List.cons_append, List.head?_cons, List.head?_cons, List.tail_cons, List.tail_cons]
    split <;> rfl

theorem takeSign_of_head (h : s.head? ≠ some '-' ∧ s.head? ≠ some '+') : takeSign s = (false, s) := by
  rw [takeSign_eq, decide_eq_false h.1, if_neg fun hor => hor.elim h.2 h.1]

/-- Spaces, a sign and a body. -/
theorem subject_append (hs : ∀ c ∈ s, isCSpace c = true) (htext : text ≠ [])
    (hhead : ∀ c ∈ text.head?, isCSpace c = false) (base : ℕ) :
    subject (s ++ (text ++ trail)) base =
      (magnitudeAt base ((takeSign text).2 ++ trail)).map fun p => ((takeSign text).1, p) := by
  have hdrop : (s ++ (text ++ trail)).dropWhile isCSpace = text ++ trail := by
    rw [List.dropWhile_append_of_pos hs]
    cases text with
    | nil => exact absurd rfl htext
    | cons c text => rw [List.cons_append, List.dropWhile_cons_of_neg (by rw [hhead c rfl]; exact Bool.false_ne_true)]
  rw [subject_eq, hdrop, takeSign_append htext]

theorem magnitudeAt_ten_of_head (h : ∀ c ∈ text.head?, decDigit c = none) : magnitudeAt 10 text = none := by
  have hten : baseDigit 10 = decDigit := funext baseDigit_ten
  have hhead : text.head?.bind decDigit = none := by
    cases text with
    | nil => rfl
    | cons c text => exact h c rfl
  have hskip : skipHexPrefix 10 text = text := rfl
  rw [magnitudeAt, hskip, hten, scanDigits_of_head hhead, if_pos rfl]

/-- Before a character that is no space, no sign and no digit nothing is read. -/
theorem subject_ten_eq_none (h : ∀ c ∈ (text.dropWhile isCSpace).head?, c ≠ '-' ∧ c ≠ '+' ∧ decDigit c = none) :
    subject text 10 = none := by
  have hsign : takeSign (text.dropWhile isCSpace) = (false, text.dropWhile isCSpace) :=
    takeSign_of_head ⟨fun hc => (h _ hc).1 rfl, fun hc => (h _ hc).2.1 rfl⟩
  rw [subject_eq, hsign, magnitudeAt_ten_of_head fun c hc => (h c hc).2.2]
  rfl

theorem suffix_skipHexPrefix (base : ℕ) (text : Text) : skipHexPrefix base text <:+ text := by
  unfold skipHexPrefix
  split
  · cases h : stripHexPrefix text with
    | none => exact List.suffix_refl _
    | some digits =>
      obtain ⟨x, -, rfl⟩ := stripHexPrefix_eq_some h
      rw [Option.elim_some]
      split
      · exact ⟨['0', x], rfl⟩
      · exact List.suffix_refl _
  · exact List.suffix_refl _

theorem suffix_takeSign (text : Text) : (takeSign text).2 <:+ text := by
  rw [takeSign_eq]
  dsimp only
  split
  · exact List.tail_suffix _
  · exact List.suffix_refl _

/-- What is read is not empty. -/
theorem length_of_subject {negative : Bool} (h : subject text base = some (negative, n, rest)) :
    rest.length < text.length := by
  rw [subject_eq] at h
  obtain ⟨⟨m, after⟩, hm, heq⟩ := Option.map_eq_some_iff.1 h
  obtain ⟨-, heq⟩ := Prod.mk.inj heq
  obtain ⟨rfl, rfl⟩ := Prod.mk.inj heq
  have hsuffix := (suffix_skipHexPrefix base _).trans
    ((suffix_takeSign (text.dropWhile isCSpace)).trans (List.dropWhile_suffix _))
  refine lt_of_lt_of_le ?_ hsuffix.length_le
  rw [magnitudeAt] at hm
  split at hm
  · cases hm
  · rename_i hne
    obtain ⟨ds, htext, -⟩ := scanDigits_spec (baseDigit base) base 0
      (skipHexPrefix base (takeSign (text.dropWhile isCSpace)).2)
    rw [Option.some.inj hm] at htext hne
    dsimp only at htext hne
    have hpos : ds ≠ [] := by
      rintro rfl
      exact hne htext.symm
    rw [htext, List.length_append]
    have := List.length_pos_iff.2 hpos
    omega

/-! ## Literals -/

/-- In a base that suits the body, a literal is what is read up to the spaces. -/
theorem magnitudeAt_iff {space : Char → Bool} (hdigits : ∀ c, (hexDigit c).isSome = true → space c = false)
    (hx : space 'x' = false ∧ space 'X' = false) (hbody : ∀ c ∈ body.getLast?, space c = false)
    (htrail : ∀ c ∈ trail, space c = true) (hrest : ∀ c ∈ rest, space c = true)
    (hbase : base = 10 ∨ base = 16 ∧ (stripHexPrefix body).isSome = true) :
    magnitudeAt base (body ++ trail) = some (n, rest) ↔ rest = trail ∧ literalMagnitude base body = some n := by
  rcases hbase with rfl | ⟨rfl, hbodyStrip⟩
  · exact magnitudeAt_ten_iff hdigits hbody htrail hrest
  · obtain ⟨hex, hhex⟩ := Option.isSome_iff_exists.1 hbodyStrip
    rw [magnitudeAt_sixteen_iff hdigits hx hbody htrail hrest hhex, literalMagnitude, if_pos rfl, hhex,
      Option.bind_some]

theorem literalMagnitude_ten_of_strip (h : (stripHexPrefix body).isSome = true) : literalMagnitude 10 body = none := by
  obtain ⟨hex, hhex⟩ := Option.isSome_iff_exists.1 h
  obtain ⟨x, hx, rfl⟩ := stripHexPrefix_eq_some hhex
  rw [literalMagnitude, if_neg (by decide)]
  cases hread : readNumber decDigit 10 ('0' :: x :: hex) with
  | none => rfl
  | some n =>
    have hdigit := (isDigit_of_readNumber hread).2 x (by simp)
    rcases hx with rfl | rfl <;> cases hdigit

end SemantiST.Lib
