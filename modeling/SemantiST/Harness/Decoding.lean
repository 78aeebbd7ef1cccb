import SemantiST.Corpus.Frames
import SemantiST.Engine.Bundle
import SemantiST.Harness.Integers
import SemantiST.Lib.CLiteral

/-!
# Decoding of integers

`_scalar_assignment` of `v3gen.py` decodes the integers of a record; the two validators have accepted
them before.
-/

namespace SemantiST.Harness

open Lib Corpus

/-- `_scalar_assignment`, for the integer types. -/
def scalarAssignment (type : ScalarType) (value : Text) : Option ℤ :=
  let bits := type.size * 8
  if type.cType.head? = some 'u' then
    (parseUnsignedChecked strtoull value (if type = .bool then 1 else 2 ^ bits - 1)).map Int.ofNat
  else parseSignedChecked strtoll value (-2 ^ (bits - 1)) (2 ^ (bits - 1) - 1)

/-! ## Spellings -/

/-- `[+-]?[0-9]+`. -/
def isDecimalLiteral (text : Text) : Bool :=
  let digits := (takeSign text).2
  digits ≠ [] && digits.all Char.isDigit

/-- The spellings the harness decodes like a validator that trims `space`: a C literal, and blanks around it.  An
unsigned value has no minus sign; a line feed or a form feed before a literal is read over, unless it has the prefix
of base 16. -/
def Spelled (space : Char → Bool) (type : ScalarType) (value : Text) : Prop :=
  let core := trim space value
  (isDecimalLiteral core || isHexLiteral core) = true ∧
    ((value.dropWhile space).rtakeWhile space).all isBlank = true ∧
    if (value.takeWhile space).all isBlank = true then type.unsigned = true → core.head? ≠ some '-'
    else (value.takeWhile space).all isCSpace = true ∧ isHexLiteral core = false

instance (space : Char → Bool) (type : ScalarType) (value : Text) : Decidable (Spelled space type value) := by
  unfold Spelled
  infer_instance

/-- A class of spaces: those of C, and no graphic character. -/
structure SpaceClass (space : Char → Bool) : Prop where
  cSpace : ∀ c, isCSpace c = true → space c = true
  graphic : ∀ c : Char, 0x21 ≤ c.toNat ∧ c.toNat ≤ 0x7e → space c = false

theorem spaceClass_isWhitespace : SpaceClass isWhitespace where
  cSpace c hc := by
    simp only [isCSpace, isWhitespace, Bool.or_eq_true, Bool.and_eq_true, decide_eq_true_eq, beq_iff_eq] at hc ⊢
    rcases hc with rfl | hc
    · decide
    · omega
  graphic c hc := by
    simp only [isWhitespace, Bool.or_eq_false_iff, Bool.and_eq_false_iff, decide_eq_false_iff_not, beq_eq_false_iff_ne]
    omega

theorem spaceClass_isSpace : SpaceClass isSpace where
  cSpace c hc := by
    rw [isSpace, spaceClass_isWhitespace.cSpace c hc, Bool.true_or]
  graphic _ hc := isSpace_graphic hc

variable {space : Char → Bool} {type : ScalarType} {value core body lead trail start rest : Text} {n maximum r : ℕ}
  {minimum top v : ℤ} {negative : Bool} {c : Char}

theorem isCSpace_of_isBlank (h : isBlank c = true) : isCSpace c = true := by
  simp only [isBlank, Bool.or_eq_true, decide_eq_true_eq] at h
  rcases h with (rfl | rfl) | rfl <;> decide

theorem numericEnd_iff : numericEnd rest = true ↔ ∀ c ∈ rest, isBlank c = true := by
  rw [numericEnd, decide_eq_true_iff, List.dropWhile_eq_nil_iff]

theorem numericEnd_eq_false : numericEnd rest = false ↔ ¬∀ c ∈ rest, isBlank c = true := by
  rw [← numericEnd_iff, Bool.not_eq_true]

theorem hexDigit_graphic (h : (hexDigit c).isSome = true) : 0x21 ≤ c.toNat ∧ c.toNat ≤ 0x7e := by
  unfold hexDigit at h
  split at h
  · rename_i hdigit
    have := isDigit_range hdigit
    omega
  · split at h
    · rename_i hrange
      have hlow : 97 ≤ c.toNat := hrange.1
      have hhigh : c.toNat ≤ 102 := hrange.2
      omega
    · split at h
      · rename_i hrange
        have hlow : 65 ≤ c.toNat := hrange.1
        have hhigh : c.toNat ≤ 70 := hrange.2
        omega
      · cases h

theorem SpaceClass.hexDigit (h : SpaceClass space) (c : Char) (hc : (hexDigit c).isSome = true) : space c = false :=
  h.graphic c (hexDigit_graphic hc)

/-! ## The conversions -/

/-- The unsigned conversion, with what `semantist_parse_unsigned_checked` asks of it. -/
theorem checked_strtoull (base : ℕ) :
    (if (strtoull false start base).erange = true ∨ (strtoull false start base).rest = start ∨
        numericEnd (strtoull false start base).rest = false ∨ maximum < (strtoull false start base).value then none
      else some (strtoull false start base).value) = some r ↔
    ∃ negative n rest, subject start base = some (negative, n, rest) ∧ (∀ c ∈ rest, isBlank c = true) ∧
      n ≤ ullongMax ∧ r = (if negative then (2 ^ 64 - n) % 2 ^ 64 else n) ∧ r ≤ maximum := by
  cases hsubject : subject start base with
  | none => simp [strtoull, hsubject]
  | some p =>
    obtain ⟨negative, n, rest⟩ := p
    have hne : rest ≠ start := fun h => (length_of_subject hsubject).ne (by rw [h])
    have hresult : strtoull false start base =
        if ullongMax < n then ⟨ullongMax, rest, true⟩
        else ⟨if negative then (2 ^ 64 - n) % 2 ^ 64 else n, rest, false⟩ := by
      rw [strtoull, hsubject, Option.elim_some]
    simp only [hresult, Option.ite_none_left_eq_some, Option.some.injEq, Prod.mk.injEq, and_assoc, exists_and_left,
      exists_eq_left', numericEnd_eq_false]
    generalize (if negative then (2 ^ 64 - n) % 2 ^ 64 else n) = value
    by_cases hover : ullongMax < n
    · rw [if_pos hover]
      exact iff_of_false (fun h => h.1 (.inl rfl)) fun h => not_le.2 hover h.2.1
    · rw [if_neg hover]
      simp only [hne, false_or, Bool.false_eq_true, not_or, not_not, not_lt, not_lt.1 hover, true_and, and_assoc, eq_comm (a := r)]
      exact and_congr_right fun _ => ⟨fun h => ⟨h.2, h.2 ▸ h.1⟩, fun h => ⟨h.1.symm ▸ h.2, h.1⟩⟩

/-- The signed conversion, with what `semantist_parse_signed_checked` asks of it. -/
theorem checked_strtoll (base : ℕ) :
    (if (strtoll false start base).erange = true ∨ (strtoll false start base).rest = start ∨
        numericEnd (strtoll false start base).rest = false ∨ (strtoll false start base).value < minimum ∨
        top < (strtoll false start base).value then none
      else some (strtoll false start base).value) = some v ↔
    ∃ negative n rest, subject start base = some (negative, n, rest) ∧ (∀ c ∈ rest, isBlank c = true) ∧
      v = (if negative then -(n : ℤ) else n) ∧ llongMin ≤ v ∧ v ≤ llongMax ∧ minimum ≤ v ∧ v ≤ top := by
  cases hsubject : subject start base with
  | none => simp [strtoll, hsubject]
  | some p =>
    obtain ⟨negative, n, rest⟩ := p
    have hne : rest ≠ start := fun h => (length_of_subject hsubject).ne (by rw [h])
    have hresult : strtoll false start base =
        if llongMax < (if negative then -(n : ℤ) else n) then ⟨llongMax, rest, true⟩
        else if (if negative then -(n : ℤ) else n) < llongMin then ⟨llongMin, rest, true⟩
        else ⟨if negative then -(n : ℤ) else n, rest, false⟩ := by
      rw [strtoll, hsubject, Option.elim_some]
    simp only [hresult, Option.ite_none_left_eq_some, Option.some.injEq, Prod.mk.injEq, and_assoc, exists_and_left,
      exists_eq_left', numericEnd_eq_false]
    generalize (if negative then -(n : ℤ) else n) = value
    by_cases habove : llongMax < value
    · rw [if_pos habove]
      exact iff_of_false (fun h => h.1 (.inl rfl)) fun ⟨_, hv, _, h, _⟩ => not_le.2 habove (hv ▸ h)
    rw [if_neg habove]
    by_cases hbelow : value < llongMin
    · rw [if_pos hbelow]
      exact iff_of_false (fun h => h.1 (.inl rfl)) fun ⟨_, hv, h, _⟩ => not_le.2 hbelow (hv ▸ h)
    rw [if_neg hbelow]
    simp only [hne, false_or, Bool.false_eq_true, not_or, not_not, not_lt, and_assoc, eq_comm (a := v)]
    refine and_congr_right fun _ => ⟨?_, ?_⟩
    · rintro ⟨hmin, htop, rfl⟩
      exact ⟨rfl, not_lt.1 hbelow, not_lt.1 habove, hmin, htop⟩
    · rintro ⟨rfl, -, -, hmin, htop⟩
      exact ⟨hmin, htop, rfl⟩

/-! ## What a validator has read -/

theorem takeSign_of_forall {s : Text} (hminus : ∀ rest, s = '-' :: rest → False)
    (hplus : ∀ rest, s = '+' :: rest → False) : takeSign s = (false, s) := by
  apply takeSign_of_head
  constructor
  · intro h
    obtain ⟨rest, rfl⟩ := List.head?_eq_some_iff.1 h
    exact hminus rest rfl
  · intro h
    obtain ⟨rest, rfl⟩ := List.head?_eq_some_iff.1 h
    exact hplus rest rfl

/-- A sign and a body, that spell `v` where the body is a literal of C. -/
structure Reading (core : Text) (v : ℤ) : Prop where
  head : ∃ c rest, (takeSign core).2 = c :: rest ∧ isCSpace c = false ∧ c ≠ '-' ∧ c ≠ '+'
  value : ∀ base n, literalMagnitude base (takeSign core).2 = some n →
    v = if (takeSign core).1 then -(n : ℤ) else n

theorem Reading.core_head (h : Reading core v) : core ≠ [] ∧ ∀ c ∈ core.head?, isCSpace c = false := by
  obtain ⟨c, rest, hbody, hc, -, -⟩ := h.head
  rw [takeSign_eq] at hbody
  cases core with
  | nil => cases hbody
  | cons d core =>
    refine ⟨List.cons_ne_nil _ _, fun e he => ?_⟩
    obtain rfl : d = e := Option.some.inj he
    by_cases hsign : d = '+' ∨ d = '-'
    · rcases hsign with rfl | rfl <;> decide
    · push Not at hsign
      rw [List.head?_cons, if_neg (by simpa using hsign)] at hbody
      rwa [(List.cons.inj hbody).1]

theorem stripHexPrefix_append (hspace : SpaceClass space) (hbody : body ≠ [])
    (htrail : ∀ c ∈ trail, space c = true) :
    (stripHexPrefix (body ++ trail)).isSome = (stripHexPrefix body).isSome := by
  match body with
  | [c] =>
    cases trail with
    | nil => rfl
    | cons d trail =>
      have hd : d ≠ 'x' ∧ d ≠ 'X' := by
        have htrue := htrail d List.mem_cons_self
        constructor
        · rintro rfl
          rw [hspace.graphic 'x' (by decide)] at htrue
          cases htrue
        · rintro rfl
          rw [hspace.graphic 'X' (by decide)] at htrue
          cases htrue
      have hnone : stripHexPrefix (c :: d :: trail) = none := by
        cases h : stripHexPrefix (c :: d :: trail) with
        | none => rfl
        | some rest =>
          obtain ⟨x, hx, heq⟩ := stripHexPrefix_eq_some h
          obtain ⟨rfl, -⟩ := List.cons.inj (List.cons.inj heq).2
          exact absurd hx (not_or.2 hd)
      have hone : stripHexPrefix [c] = none := by
        cases h : stripHexPrefix [c] with
        | none => rfl
        | some rest =>
          obtain ⟨x, -, heq⟩ := stripHexPrefix_eq_some h
          cases (List.cons.inj heq).2
      rw [List.singleton_append, hnone, hone]
  | c :: d :: body =>
    have happend : ∀ s : Text, (stripHexPrefix (c :: d :: s)).isSome = decide (c = '0' ∧ (d = 'x' ∨ d = 'X')) := by
      intro s
      by_cases hc : c = '0' ∧ (d = 'x' ∨ d = 'X')
      · rw [decide_eq_true hc]
        obtain ⟨rfl, rfl | rfl⟩ := hc <;> rfl
      · rw [decide_eq_false hc]
        cases h : stripHexPrefix (c :: d :: s) with
        | none => rfl
        | some rest =>
          obtain ⟨x, hx, heq⟩ := stripHexPrefix_eq_some h
          obtain ⟨hzero, heq⟩ := List.cons.inj heq
          exact absurd ⟨hzero, (List.cons.inj heq).1 ▸ hx⟩ hc
    rw [List.cons_append, List.cons_append, happend, happend]

theorem body_getLast (hlast : ∀ c ∈ core.getLast?, space c = false) :
    ∀ c ∈ (takeSign core).2.getLast?, space c = false := by
  intro c hc
  apply hlast
  obtain ⟨front, hfront⟩ := suffix_takeSign core
  rw [← hfront, List.getLast?_append, hc]
  rfl

theorem baseOf_append (hspace : SpaceClass space) (hbody : body ≠ []) (htrail : ∀ c ∈ trail, space c = true) :
    baseOf (body ++ trail) = baseOf body := by
  rw [baseOf, baseOf, stripHexPrefix_append hspace hbody htrail]

theorem baseOf_suits (body : Text) : baseOf body = 10 ∨ baseOf body = 16 ∧ (stripHexPrefix body).isSome = true := by
  unfold baseOf
  split
  · rename_i h
    exact .inr ⟨rfl, h⟩
  · exact .inl rfl

theorem Reading.body_ne_nil (h : Reading core v) : (takeSign core).2 ≠ [] := by
  obtain ⟨c, rest, hbody, -⟩ := h.head
  rw [hbody]
  exact List.cons_ne_nil _ _

/-- Without a minus sign the body is read like the whole. -/
theorem Reading.unsigned (h : Reading core v) (hplus : (takeSign core).1 = false) :
    takeSign (takeSign core).2 = (false, (takeSign core).2) ∧ Reading (takeSign core).2 v := by
  obtain ⟨c, rest, hbody, hspace, hminus, hplus'⟩ := h.head
  have hsign : takeSign (takeSign core).2 = (false, (takeSign core).2) := by
    apply takeSign_of_head
    rw [hbody]
    exact ⟨fun h => hminus (Option.some.inj h), fun h => hplus' (Option.some.inj h)⟩
  refine ⟨hsign, ⟨c, rest, by rw [hsign, hbody], hspace, hminus, hplus'⟩, fun base n hn => ?_⟩
  rw [hsign] at hn ⊢
  rw [h.value base n hn, hplus]

theorem skipSpaces_blank (hread : Reading core v) (hlead : ∀ c ∈ lead, isBlank c = true) :
    skipSpaces (lead ++ (core ++ trail)) = core ++ trail := by
  rw [skipSpaces, List.dropWhile_append_of_pos hlead]
  obtain ⟨hne, hhead⟩ := hread.core_head
  cases core with
  | nil => exact absurd rfl hne
  | cons c core =>
    rw [List.cons_append, List.dropWhile_cons_of_neg]
    intro hblank
    have hc := hhead c rfl
    rw [isCSpace_of_isBlank hblank] at hc
    cases hc

theorem ne_of_space (hspace : SpaceClass space) (hc : space c = true) {d : Char}
    (hd : 0x21 ≤ d.toNat ∧ d.toNat ≤ 0x7e) : c ≠ d := by
  rintro rfl
  rw [hspace.graphic c hd] at hc
  cases hc

theorem baseOf_of_head (hc : c ≠ '0') : baseOf (c :: rest) = 10 := by
  unfold baseOf
  cases h : stripHexPrefix (c :: rest) with
  | none => rfl
  | some hex =>
    obtain ⟨x, -, heq⟩ := stripHexPrefix_eq_some h
    exact absurd (List.cons.inj heq).1 hc

/-- A space that is no blank is not read over by `skip_spaces`. -/
theorem skipSpaces_space (hlead : ¬ ∀ c ∈ lead, isBlank c = true) (t : Text) :
    ∃ c rest, skipSpaces (lead ++ t) = c :: rest ++ t ∧ isBlank c = false ∧ (∀ d ∈ c :: rest, d ∈ lead) ∧
      ((∀ d ∈ c :: rest, isCSpace d = true) ↔ ∀ d ∈ lead, isCSpace d = true) := by
  have hne : lead.dropWhile isBlank ≠ [] := fun h => hlead fun c hc => List.dropWhile_eq_nil_iff.1 h c hc
  obtain ⟨c, rest, hdrop⟩ := List.exists_cons_of_ne_nil hne
  have hc : isBlank c = false := by
    have := List.head?_dropWhile_not isBlank lead
    rw [hdrop] at this
    simpa using this
  have hlead' : lead = lead.takeWhile isBlank ++ c :: rest := by rw [← hdrop, List.takeWhile_append_dropWhile]
  refine ⟨c, rest, ?_, hc, fun d hd => ?_, ?_⟩
  · rw [skipSpaces, hlead', List.append_assoc,
      List.dropWhile_append_of_pos fun d hd => List.mem_takeWhile_imp hd, List.cons_append,
      List.dropWhile_cons_of_neg (by rw [hc]; exact Bool.false_ne_true)]
  · rw [hlead']
    exact List.mem_append_right _ hd
  · constructor
    · intro h d hd
      rw [hlead'] at hd
      rcases List.mem_append.1 hd with hd | hd
      · exact isCSpace_of_isBlank (List.mem_takeWhile_imp hd)
      · exact h d hd
    · exact fun h d hd => h d (by rw [hlead']; exact List.mem_append_right _ hd)

/-- Other spaces before a text are read over in part; what is left has no sign and no prefix. -/
theorem skipSpaces_other (hspace : SpaceClass space) (hlead : ∀ c ∈ lead, space c = true)
    (hother : ¬ ∀ c ∈ lead, isBlank c = true) (t : Text) :
    ∃ start, skipSpaces (lead ++ t) = start ++ t ∧ start ++ t ≠ [] ∧ (start ++ t).head? ≠ some '-' ∧
      (start ++ t).head? ≠ some '+' ∧ baseOf (start ++ t) = 10 ∧ (∀ c ∈ start, space c = true) ∧
      ((∀ c ∈ start, isCSpace c = true) ↔ ∀ c ∈ lead, isCSpace c = true) := by
  obtain ⟨c, after, hskip, -, hsub, hiff⟩ := skipSpaces_space hother t
  have hstart : ∀ d ∈ c :: after, space d = true := fun d hd => hlead d (hsub d hd)
  have hgraphic := fun d hd => ne_of_space hspace (hstart c List.mem_cons_self) (d := d) hd
  exact ⟨c :: after, hskip, List.cons_ne_nil _ _, fun h => hgraphic '-' (by decide) (Option.some.inj h),
    fun h => hgraphic '+' (by decide) (Option.some.inj h), baseOf_of_head (hgraphic '0' (by decide)), hstart, hiff⟩

/-- A space of neither kind stops the conversion. -/
theorem subject_space (hspace : SpaceClass space) {t : Text} (hall : ∀ c ∈ start, space c = true)
    (hother : ¬ ∀ c ∈ start, isCSpace c = true) : subject (start ++ t) 10 = none := by
  apply subject_ten_eq_none
  have hne : start.dropWhile isCSpace ≠ [] := fun h => hother fun c hc => List.dropWhile_eq_nil_iff.1 h c hc
  obtain ⟨c, rest, hdrop⟩ := List.exists_cons_of_ne_nil hne
  have hsplit : start = start.takeWhile isCSpace ++ c :: rest := by rw [← hdrop, List.takeWhile_append_dropWhile]
  have hc : isCSpace c = false := by
    have := List.head?_dropWhile_not isCSpace start
    rw [hdrop] at this
    simpa using this
  have hcSpace : space c = true := by
    apply hall
    rw [hsplit]
    exact List.mem_append_right _ List.mem_cons_self
  rw [hsplit, List.append_assoc, List.dropWhile_append_of_pos fun d hd => List.mem_takeWhile_imp hd, List.cons_append,
    List.dropWhile_cons_of_neg (by rw [hc]; exact Bool.false_ne_true)]
  intro d hd
  obtain rfl : c = d := Option.some.inj hd
  refine ⟨?_, ?_, ?_⟩
  · rintro rfl
    rw [hspace.graphic '-' (by decide)] at hcSpace
    cases hcSpace
  · rintro rfl
    rw [hspace.graphic '+' (by decide)] at hcSpace
    cases hcSpace
  · cases hdigit : decDigit c with
    | none => rfl
    | some d =>
      have hrange := isDigit_range (decDigit_isSome.symm.trans (by rw [hdigit]; rfl))
      rw [hspace.graphic c (by omega)] at hcSpace
      cases hcSpace

section Blanks

variable (hspace : SpaceClass space) (hread : Reading core v) (hlast : ∀ c ∈ core.getLast?, space c = false)
  (htrail : ∀ c ∈ trail, space c = true)

include hspace hread hlast htrail

/-- What is read up to the blanks is a literal. -/
theorem subject_iff (negative : Bool) (n : ℕ) (rest lead : Text) {base : ℕ}
    (hbase : base = 10 ∨ base = 16 ∧ (stripHexPrefix (takeSign core).2).isSome = true)
    (hlead : ∀ c ∈ lead, isCSpace c = true) :
    subject (lead ++ (core ++ trail)) base = some (negative, n, rest) ∧ (∀ c ∈ rest, isBlank c = true) ↔
      negative = (takeSign core).1 ∧ rest = trail ∧ (∀ c ∈ trail, isBlank c = true) ∧
        literalMagnitude base (takeSign core).2 = some n := by
  have hmagnitude : ∀ rest : Text, (∀ c ∈ rest, isBlank c = true) →
      (magnitudeAt base ((takeSign core).2 ++ trail) = some (n, rest) ↔
        rest = trail ∧ literalMagnitude base (takeSign core).2 = some n) := by
    intro rest hblank
    exact magnitudeAt_iff hspace.hexDigit ⟨hspace.graphic 'x' (by decide), hspace.graphic 'X' (by decide)⟩
      (body_getLast hlast) htrail
      (fun c hc => hspace.cSpace c (isCSpace_of_isBlank (hblank c hc))) hbase
  rw [subject_append hlead hread.core_head.1 hread.core_head.2]
  constructor
  · rintro ⟨h, hblank⟩
    obtain ⟨p, hp, heq⟩ := Option.map_eq_some_iff.1 h
    obtain ⟨rfl, rfl⟩ := Prod.mk.inj heq
    obtain ⟨rfl, hliteral⟩ := (hmagnitude rest hblank).1 hp
    exact ⟨rfl, rfl, hblank, hliteral⟩
  · rintro ⟨rfl, rfl, hblank, hliteral⟩
    rw [(hmagnitude rest hblank).2 ⟨rfl, hliteral⟩]
    exact ⟨rfl, hblank⟩

/-- **After blanks the signed parser reads a literal.** -/
theorem parseSignedChecked_blank (hlead : ∀ c ∈ lead, isBlank c = true) (hmin : llongMin ≤ minimum)
    (htop : top ≤ llongMax) (hv : minimum ≤ v ∧ v ≤ top) :
    parseSignedChecked strtoll (lead ++ (core ++ trail)) minimum top = some v ↔
      (∀ c ∈ trail, isBlank c = true) ∧ (literalMagnitude (baseOf (takeSign core).2) (takeSign core).2).isSome = true := by
  obtain ⟨hne, hhead⟩ := hread.core_head
  have hdigits : (if (core ++ trail).head? = some '-' ∨ (core ++ trail).head? = some '+' then (core ++ trail).tail
      else core ++ trail) = (takeSign core).2 ++ trail := by
    have happend := congrArg Prod.snd (takeSign_append hne trail)
    rw [takeSign_eq (core ++ trail)] at happend
    simp only [or_comm (a := (core ++ trail).head? = some '+')] at happend
    exact happend
  rw [parseSignedChecked, skipSpaces_blank hread hlead]
  dsimp only
  rw [if_neg (by simp [hne]), hdigits, baseOf_append hspace hread.body_ne_nil htrail, checked_strtoll]
  have hiff := fun negative n rest => subject_iff hspace hread hlast htrail negative n rest []
    (baseOf_suits _) (fun c hc => nomatch hc)
  simp only [List.nil_append] at hiff
  constructor
  · rintro ⟨negative, n, rest, hsubject, hblank, -⟩
    obtain ⟨-, rfl, htrail, hliteral⟩ := (hiff _ _ _).1 ⟨hsubject, hblank⟩
    exact ⟨htrail, by rw [hliteral]; rfl⟩
  · rintro ⟨hblank, hliteral⟩
    obtain ⟨n, hliteral⟩ := Option.isSome_iff_exists.1 hliteral
    obtain ⟨hsubject, -⟩ := (hiff _ _ _).2 ⟨rfl, rfl, hblank, hliteral⟩
    exact ⟨_, n, trail, hsubject, hblank, hread.value _ n hliteral, hmin.trans hv.1, hv.2.trans htop, hv⟩

/-- **After blanks the unsigned parser reads a literal without a minus sign.** -/
theorem parseUnsignedChecked_blank (hlead : ∀ c ∈ lead, isBlank c = true) (hmax : maximum ≤ ullongMax)
    (hv : 0 ≤ v ∧ v ≤ maximum) :
    (parseUnsignedChecked strtoull (lead ++ (core ++ trail)) maximum).map Int.ofNat = some v ↔
      core.head? ≠ some '-' ∧ (∀ c ∈ trail, isBlank c = true) ∧
        (literalMagnitude (baseOf (takeSign core).2) (takeSign core).2).isSome = true := by
  obtain ⟨hne, hhead⟩ := hread.core_head
  have hfirst : (core ++ trail).head? = core.head? := List.head?_append_of_ne_nil _ hne
  have hminus : (takeSign core).1 = decide (core.head? = some '-') := congrArg Prod.fst (takeSign_eq core)
  rw [parseUnsignedChecked, skipSpaces_blank hread hlead]
  dsimp only
  rw [hfirst]
  by_cases hneg : core.head? = some '-'
  · rw [if_pos (.inl hneg)]
    exact ⟨(fun h => nomatch h), fun h => absurd hneg h.1⟩
  · rw [decide_eq_false hneg] at hminus
    obtain ⟨hsign, hunsigned⟩ := hread.unsigned hminus
    have hdigits : (if core.head? = some '+' then (core ++ trail).tail else core ++ trail) =
        (takeSign core).2 ++ trail := by
      have happend := congrArg Prod.snd (takeSign_append hne trail)
      rw [takeSign_eq (core ++ trail), hfirst] at happend
      simpa only [hneg, or_false] using happend
    rw [if_neg (by simp [hneg, hne]), hdigits, baseOf_append hspace hread.body_ne_nil htrail]
    have hiff := fun negative n rest => subject_iff hspace hunsigned (body_getLast hlast) htrail negative n rest []
      (by rw [hsign]; exact baseOf_suits _) (fun c hc => nomatch hc)
    simp only [List.nil_append, hsign] at hiff
    constructor
    · intro h
      obtain ⟨r, hr, -⟩ := Option.map_eq_some_iff.1 h
      obtain ⟨negative, n, rest, hsubject, hblank, -⟩ := (checked_strtoull _).1 hr
      obtain ⟨-, rfl, htrail, hliteral⟩ := (hiff _ _ _).1 ⟨hsubject, hblank⟩
      exact ⟨hneg, htrail, by rw [hliteral]; rfl⟩
    · rintro ⟨-, hblank, hliteral⟩
      obtain ⟨n, hliteral⟩ := Option.isSome_iff_exists.1 hliteral
      obtain ⟨hsubject, -⟩ := (hiff _ _ _).2 ⟨rfl, rfl, hblank, hliteral⟩
      have hvalue := hread.value _ n hliteral
      rw [hminus, if_neg Bool.false_ne_true] at hvalue
      have hle : n ≤ maximum := by omega
      rw [(checked_strtoull _).2 ⟨false, n, trail, hsubject, hblank, hle.trans hmax, rfl, hle⟩, hvalue]
      rfl

/-! ## Other spaces before the literal -/

/-- After other spaces the base is 10, and what is read up to the blanks is a decimal literal. -/
theorem subject_space_iff (negative : Bool) (n : ℕ) (rest : Text) (hlead : ∀ c ∈ start, space c = true) :
    subject (start ++ (core ++ trail)) 10 = some (negative, n, rest) ∧ (∀ c ∈ rest, isBlank c = true) ↔
      (∀ c ∈ start, isCSpace c = true) ∧ negative = (takeSign core).1 ∧ rest = trail ∧
        (∀ c ∈ trail, isBlank c = true) ∧ literalMagnitude 10 (takeSign core).2 = some n := by
  by_cases hall : ∀ c ∈ start, isCSpace c = true
  · rw [subject_iff hspace hread hlast htrail negative n rest start (.inl rfl) hall]
    exact ⟨fun h => ⟨hall, h⟩, fun h => h.2⟩
  · rw [subject_space hspace hlead hall]
    exact ⟨(fun h => nomatch h.1), fun h => absurd h.1 hall⟩

/-- **After other spaces the signed parser reads a decimal literal.** -/
theorem parseSignedChecked_space (hlead : ∀ c ∈ lead, space c = true) (hother : ¬ ∀ c ∈ lead, isBlank c = true)
    (hmin : llongMin ≤ minimum) (htop : top ≤ llongMax) (hv : minimum ≤ v ∧ v ≤ top) :
    parseSignedChecked strtoll (lead ++ (core ++ trail)) minimum top = some v ↔
      (∀ c ∈ lead, isCSpace c = true) ∧ (∀ c ∈ trail, isBlank c = true) ∧
        (literalMagnitude 10 (takeSign core).2).isSome = true := by
  obtain ⟨start, hskip, hnil, hminus, hplus, hbase, hstart, hiff⟩ := skipSpaces_other hspace hlead hother (core ++ trail)
  rw [parseSignedChecked, hskip]
  dsimp only
  rw [if_neg hnil, if_neg (not_or.2 ⟨hminus, hplus⟩), hbase, checked_strtoll]
  have hread' := fun negative n rest => subject_space_iff hspace hread hlast htrail negative n rest hstart
  constructor
  · rintro ⟨negative, n, rest, hsubject, hblank, -⟩
    obtain ⟨hall, -, rfl, htrail, hliteral⟩ := (hread' _ _ _).1 ⟨hsubject, hblank⟩
    exact ⟨hiff.1 hall, htrail, by rw [hliteral]; rfl⟩
  · rintro ⟨hall, hblank, hliteral⟩
    obtain ⟨n, hliteral⟩ := Option.isSome_iff_exists.1 hliteral
    obtain ⟨hsubject, -⟩ := (hread' _ _ _).2 ⟨hiff.2 hall, rfl, rfl, hblank, hliteral⟩
    exact ⟨_, n, trail, hsubject, hblank, hread.value _ n hliteral, hmin.trans hv.1, hv.2.trans htop, hv⟩

/-- **After other spaces the unsigned parser reads a decimal literal.** -/
theorem parseUnsignedChecked_space (hlead : ∀ c ∈ lead, space c = true) (hother : ¬ ∀ c ∈ lead, isBlank c = true)
    (hmax : maximum ≤ ullongMax) (hv : 0 ≤ v ∧ v ≤ maximum) :
    (parseUnsignedChecked strtoull (lead ++ (core ++ trail)) maximum).map Int.ofNat = some v ↔
      (∀ c ∈ lead, isCSpace c = true) ∧ (∀ c ∈ trail, isBlank c = true) ∧
        (literalMagnitude 10 (takeSign core).2).isSome = true := by
  obtain ⟨start, hskip, hnil, hminus, hplus, hbase, hstart, hiff⟩ := skipSpaces_other hspace hlead hother (core ++ trail)
  rw [parseUnsignedChecked, hskip]
  dsimp only
  rw [if_neg (not_or.2 ⟨hminus, hnil⟩), if_neg hplus, hbase]
  have hread' := fun negative n rest => subject_space_iff hspace hread hlast htrail negative n rest hstart
  constructor
  · intro h
    obtain ⟨r, hr, -⟩ := Option.map_eq_some_iff.1 h
    obtain ⟨negative, n, rest, hsubject, hblank, -⟩ := (checked_strtoull _).1 hr
    obtain ⟨hall, -, rfl, htrail, hliteral⟩ := (hread' _ _ _).1 ⟨hsubject, hblank⟩
    exact ⟨hiff.1 hall, htrail, by rw [hliteral]; rfl⟩
  · rintro ⟨hall, hblank, hliteral⟩
    obtain ⟨n, hliteral⟩ := Option.isSome_iff_exists.1 hliteral
    obtain ⟨hsubject, -⟩ := (hread' _ _ _).2 ⟨hiff.2 hall, rfl, rfl, hblank, hliteral⟩
    have hvalue := hread.value _ n hliteral
    have hlimit : ullongMax = 2 ^ 64 - 1 := rfl
    have hresult : v = ((if (takeSign core).1 = true then (2 ^ 64 - n) % 2 ^ 64 else n : ℕ) : ℤ) := by
      cases hneg : (takeSign core).1 with
      | false =>
        rw [hneg] at hvalue
        simpa using hvalue
      | true =>
        rw [hneg, if_pos rfl] at hvalue
        obtain rfl : n = 0 := by omega
        rw [hvalue]
        rfl
    have hle : n ≤ ullongMax := by
      cases hneg : (takeSign core).1 <;> rw [hneg] at hvalue <;> simp at hvalue <;> omega
    rw [(checked_strtoull _).2 ⟨_, n, trail, hsubject, hblank, hle, rfl, by omega⟩, hresult]
    rfl

end Blanks

/-! ## Literals -/

theorem readDigits_isSome_of {digit : Char → Option ℕ} {base n : ℕ} {s : Text}
    (h : ∀ c ∈ s, (digit c).isSome = true) : (readDigits digit base n s).isSome = true := by
  induction s generalizing n with
  | nil => rfl
  | cons c s ih =>
    obtain ⟨hc, hs⟩ := List.forall_mem_cons.1 h
    obtain ⟨d, hd⟩ := Option.isSome_iff_exists.1 hc
    rw [readDigits, hd, Option.bind_some]
    exact ih hs

theorem readNumber_isSome {digit : Char → Option ℕ} {base : ℕ} {s : Text} :
    (readNumber digit base s).isSome = true ↔ s ≠ [] ∧ ∀ c ∈ s, (digit c).isSome = true := by
  constructor
  · intro h
    obtain ⟨n, hn⟩ := Option.isSome_iff_exists.1 h
    exact isSome_of_readNumber hn
  · rintro ⟨hne, hs⟩
    rw [readNumber, if_neg hne]
    exact readDigits_isSome_of hs

theorem isDecimalLiteral_iff : isDecimalLiteral core = true ↔ (literalMagnitude 10 (takeSign core).2).isSome = true := by
  rw [literalMagnitude, if_neg (by decide), readNumber_isSome, isDecimalLiteral]
  simp only [decDigit_isSome, Bool.and_eq_true, decide_eq_true_eq, List.all_eq_true]

theorem isHexLiteral_iff : isHexLiteral core = true ↔ (literalMagnitude 16 (takeSign core).2).isSome = true := by
  have hdigits : isHexLiteral core = (stripHexPrefix (takeSign core).2).any fun hex =>
      hex ≠ [] && hex.all fun c => (hexDigit c).isSome := by
    unfold isHexLiteral
    split
    · rfl
    · rfl
    · rename_i hminus hplus
      rw [takeSign_of_forall hminus hplus]
  rw [hdigits, literalMagnitude, if_pos rfl]
  cases stripHexPrefix (takeSign core).2 with
  | none => exact iff_of_false Bool.false_ne_true Bool.false_ne_true
  | some hex =>
    rw [Option.any_some, Option.bind_some, readNumber_isSome]
    simp only [Bool.and_eq_true, decide_eq_true_eq, List.all_eq_true]

/-- With the prefix a literal is hexadecimal, without it decimal. -/
theorem literal_iff : (isDecimalLiteral core || isHexLiteral core) = true ↔
    (literalMagnitude (baseOf (takeSign core).2) (takeSign core).2).isSome = true := by
  rw [Bool.or_eq_true, isDecimalLiteral_iff, isHexLiteral_iff, baseOf]
  by_cases h : (stripHexPrefix (takeSign core).2).isSome = true
  · rw [if_pos h, literalMagnitude_ten_of_strip h]
    exact ⟨fun hor => hor.resolve_left Bool.false_ne_true, .inr⟩
  · rw [if_neg h]
    refine ⟨fun hor => hor.resolve_right fun hhex => h ?_, .inl⟩
    rw [literalMagnitude, if_pos rfl] at hhex
    cases hstrip : stripHexPrefix (takeSign core).2 with
    | none =>
      rw [hstrip] at hhex
      cases hhex
    | some hex => rfl

theorem decimal_iff : (isDecimalLiteral core || isHexLiteral core) = true ∧ isHexLiteral core = false ↔
    (literalMagnitude 10 (takeSign core).2).isSome = true := by
  rw [← isDecimalLiteral_iff]
  refine ⟨fun h => by simpa [h.2] using h.1, fun h => ?_⟩
  rw [h, Bool.true_or]
  refine ⟨rfl, eq_false_of_ne_true fun hhex => ?_⟩
  rw [isHexLiteral_iff, literalMagnitude, if_pos rfl] at hhex
  rw [isDecimalLiteral_iff] at h
  cases hstrip : stripHexPrefix (takeSign core).2 with
  | none =>
    rw [hstrip] at hhex
    cases hhex
  | some hex =>
    rw [literalMagnitude_ten_of_strip (by rw [hstrip]; rfl)] at h
    cases h

/-! ## The fields -/

theorem unsigned_eq (type : ScalarType) : (type.cType.head? = some 'u') ↔ type.unsigned = true := by
  cases type <;> decide

theorem integerRange_unsigned (h : type.unsigned = true) :
    integerRange type = (0, ((if type = .bool then 1 else 2 ^ (type.size * 8) - 1 : ℕ) : ℤ)) ∧
      (if type = .bool then 1 else 2 ^ (type.size * 8) - 1 : ℕ) ≤ ullongMax := by
  cases type <;> revert h <;> decide

theorem integerRange_signed (h : type.unsigned = false) (hreal : type.isReal = false) :
    integerRange type = (-2 ^ (type.size * 8 - 1), 2 ^ (type.size * 8 - 1) - 1) ∧
      llongMin ≤ (integerRange type).1 ∧ (integerRange type).2 ≤ llongMax := by
  cases type <;> revert h hreal <;> decide

theorem decodes_iff (hspace : SpaceClass space) (hreal : type.isReal = false) (hread : Reading core v)
    (hlead : ∀ c ∈ lead, space c = true) (hlast : ∀ c ∈ core.getLast?, space c = false)
    (htrail : ∀ c ∈ trail, space c = true) (hrange : (integerRange type).1 ≤ v ∧ v ≤ (integerRange type).2) :
    scalarAssignment type (lead ++ (core ++ trail)) = some v ↔
      (isDecimalLiteral core || isHexLiteral core) = true ∧ trail.all isBlank = true ∧
        if lead.all isBlank = true then type.unsigned = true → core.head? ≠ some '-'
        else lead.all isCSpace = true ∧ isHexLiteral core = false := by
  simp only [List.all_eq_true]
  have hdecimal : _ ↔ _ := @decimal_iff core
  rw [scalarAssignment]
  by_cases hunsigned : type.unsigned = true
  · obtain ⟨hrange', hmax⟩ := integerRange_unsigned hunsigned
    rw [hrange'] at hrange
    rw [if_pos ((unsigned_eq type).2 hunsigned)]
    by_cases hblank : ∀ c ∈ lead, isBlank c = true
    · rw [if_pos hblank, parseUnsignedChecked_blank hspace hread hlast htrail hblank hmax hrange, literal_iff]
      exact ⟨fun h => ⟨h.2.2, h.2.1, fun _ => h.1⟩, fun h => ⟨h.2.2 hunsigned, h.2.1, h.1⟩⟩
    · rw [if_neg hblank, parseUnsignedChecked_space hspace hread hlast htrail hlead hblank hmax hrange, ← hdecimal]
      exact ⟨fun h => ⟨h.2.2.1, h.2.1, h.1, h.2.2.2⟩, fun h => ⟨h.2.2.1, h.2.1, h.1, h.2.2.2⟩⟩
  · obtain ⟨hrange', hmin, htop⟩ := integerRange_signed (eq_false_of_ne_true hunsigned) hreal
    rw [hrange'] at hrange hmin htop
    rw [if_neg (mt (unsigned_eq type).1 hunsigned)]
    by_cases hblank : ∀ c ∈ lead, isBlank c = true
    · rw [if_pos hblank, parseSignedChecked_blank hspace hread hlast htrail hblank hmin htop hrange, literal_iff]
      exact ⟨fun h => ⟨h.2, h.1, fun hu => absurd hu hunsigned⟩, fun h => ⟨h.2.1, h.1⟩⟩
    · rw [if_neg hblank, parseSignedChecked_space hspace hread hlast htrail hlead hblank hmin htop hrange, ← hdecimal]
      exact ⟨fun h => ⟨h.2.2.1, h.2.1, h.1, h.2.2.2⟩, fun h => ⟨h.2.2.1, h.2.1, h.1, h.2.2.2⟩⟩

/-- **A value that a validator has accepted is decoded alike where its spelling is plain.** -/
theorem scalarAssignment_iff (hspace : SpaceClass space) (hreal : type.isReal = false)
    (hread : Reading (trim space value) v) (hrange : (integerRange type).1 ≤ v ∧ v ≤ (integerRange type).2) :
    scalarAssignment type value = some v ↔ Spelled space type value := by
  have hvalue : value = value.takeWhile space ++ (trim space value ++ (value.dropWhile space).rtakeWhile space) := by
    rw [trim, List.rdropWhile_append_rtakeWhile, List.takeWhile_append_dropWhile]
  have hiff := decodes_iff hspace hreal hread (fun c hc => List.mem_takeWhile_imp (l := value) hc)
    (trimmed_trim space value).2 (fun c hc => List.mem_rtakeWhile_imp (l := value.dropWhile space) hc) hrange
  rwa [← hvalue] at hiff

/-! ## The validators -/

theorem sign_cases (s : Text) : (∃ rest, s = '-' :: rest) ∨ (∃ rest, s = '+' :: rest) ∨
    ((∀ rest, s = '-' :: rest → False) ∧ (∀ rest, s = '+' :: rest → False)) := by
  by_cases hminus : ∃ rest, s = '-' :: rest
  · exact .inl hminus
  · by_cases hplus : ∃ rest, s = '+' :: rest
    · exact .inr (.inl hplus)
    · exact .inr (.inr ⟨fun rest h => hminus ⟨rest, h⟩, fun rest h => hplus ⟨rest, h⟩⟩)

theorem parseSigned_eq (digit : Char → Option ℕ) (base : ℕ) (lo hi : ℤ) (s : Text) : parseSigned digit base lo hi s =
    (readNumber digit base (takeSign s).2).bind fun n =>
      if lo ≤ (if (takeSign s).1 then -(n : ℤ) else n) ∧ (if (takeSign s).1 then -(n : ℤ) else n) ≤ hi then
        some (if (takeSign s).1 then -(n : ℤ) else n) else none := by
  rcases sign_cases s with ⟨rest, rfl⟩ | ⟨rest, rfl⟩ | ⟨hminus, hplus⟩
  · rfl
  · rfl
  · rw [takeSign_of_forall hminus hplus]
    exact parseSigned.eq_3 digit base lo hi s hminus hplus

theorem numericValue_eq (value : Text) : Engine.numericValue value =
    match stripHexPrefix (takeSign (trim isWhitespace value)).2 with
    | some hex => (parseSigned hexDigit 16 i128Min i128Max hex).map fun v =>
        if (takeSign (trim isWhitespace value)).1 then negI128 v else v
    | none => parseSigned decDigit 10 i128Min i128Max (trim isWhitespace value) := by
  unfold Engine.numericValue
  generalize trim isWhitespace value = text
  rcases sign_cases text with ⟨rest, rfl⟩ | ⟨rest, rfl⟩ | ⟨hminus, hplus⟩
  · rfl
  · rfl
  · rw [takeSign_of_forall hminus hplus]
    cases hstrip : stripHexPrefix text with
    | none => simp [hstrip]
    | some hex => simp [hstrip]

/-- A body of decimal digits. -/
theorem reading_of_decimal (h : readNumber decDigit 10 (takeSign core).2 = some n)
    (hv : v = if (takeSign core).1 then -(n : ℤ) else n) : Reading core v := by
  obtain ⟨hne, hdigits⟩ := isDigit_of_readNumber h
  obtain ⟨c, rest, hbody⟩ := List.exists_cons_of_ne_nil hne
  have hc : c.isDigit = true := hdigits c (by rw [hbody]; exact List.mem_cons_self)
  refine ⟨⟨c, rest, hbody, ?_, ?_, ?_⟩, ?_⟩
  · have hrange := isDigit_range hc
    simp only [isCSpace, Bool.or_eq_false_iff, Bool.and_eq_false_iff, decide_eq_false_iff_not]
    refine ⟨?_, by omega⟩
    rintro rfl
    exact absurd hrange (by decide)
  · rintro rfl
    cases hc
  · rintro rfl
    cases hc
  · intro base m hm
    unfold literalMagnitude at hm
    split at hm
    · obtain ⟨hex, hhex, -⟩ := Option.bind_eq_some_iff.1 hm
      have hnone : literalMagnitude 10 (takeSign core).2 = none :=
        literalMagnitude_ten_of_strip (by rw [hhex]; rfl)
      rw [literalMagnitude, if_neg (by decide), h] at hnone
      cases hnone
    · rw [h] at hm
      rw [hv, Option.some.inj hm]

/-- A body with the prefix of base 16. -/
theorem reading_of_strip {hex : Text} (h : stripHexPrefix (takeSign core).2 = some hex)
    (hv : ∀ n, readNumber hexDigit 16 hex = some n → v = if (takeSign core).1 then -(n : ℤ) else n) :
    Reading core v := by
  obtain ⟨x, -, hbody⟩ := stripHexPrefix_eq_some h
  refine ⟨⟨'0', x :: hex, hbody, by decide, by decide, by decide⟩, fun base n hn => ?_⟩
  unfold literalMagnitude at hn
  split at hn
  · rw [h, Option.bind_some] at hn
    exact hv n hn
  · have hnone : literalMagnitude 10 (takeSign core).2 = none := literalMagnitude_ten_of_strip (by rw [h]; rfl)
    rw [literalMagnitude, if_neg (by decide), hn] at hnone
    cases hnone

/-- Digits have no sign. -/
theorem takeSign_of_digits {hex : Text} (h : readNumber hexDigit 16 hex = some n) : takeSign hex = (false, hex) := by
  obtain ⟨hne, hdigits⟩ := isSome_of_readNumber h
  obtain ⟨c, rest, rfl⟩ := List.exists_cons_of_ne_nil hne
  have hc := hdigits c List.mem_cons_self
  apply takeSign_of_head
  constructor
  · intro heq
    obtain rfl := Option.some.inj heq
    cases hc
  · intro heq
    obtain rfl := Option.some.inj heq
    cases hc

theorem reading_numericValue (h : Engine.numericValue value = some v) : Reading (trim isWhitespace value) v := by
  rw [numericValue_eq] at h
  cases hstrip : stripHexPrefix (takeSign (trim isWhitespace value)).2 with
  | none =>
    rw [hstrip, parseSigned_eq] at h
    obtain ⟨n, hn, h⟩ := Option.bind_eq_some_iff.1 h
    obtain ⟨-, h⟩ := Option.ite_none_right_eq_some.1 h
    exact reading_of_decimal hn (Option.some.inj h).symm
  | some hex =>
    rw [hstrip] at h
    obtain ⟨w, hw, hv⟩ := Option.map_eq_some_iff.1 h
    refine reading_of_strip hstrip fun n hn => ?_
    rw [parseSigned_eq, takeSign_of_digits hn, hn, Option.bind_some] at hw
    obtain ⟨-, hw⟩ := Option.ite_none_right_eq_some.1 hw
    have hw : (n : ℤ) = w := Option.some.inj hw
    have hmin : ¬ (n : ℤ) = i128Min := fun heq => by
      have hlow : i128Min < 0 := by decide
      omega
    rw [← hv, ← hw, negI128, if_neg hmin]

theorem readSign_eq (magnitude : Text → Option ℕ) (s : Text) : readSign magnitude s =
    (magnitude (takeSign s).2).map fun n : ℕ => if (takeSign s).1 then -(n : ℤ) else n := by
  rcases sign_cases s with ⟨rest, rfl⟩ | ⟨rest, rfl⟩ | ⟨hminus, hplus⟩
  · rfl
  · rfl
  · rw [takeSign_of_forall hminus hplus]
    exact readSign.eq_3 magnitude s hminus hplus

section Python

variable (u : UnicodeData)

/-- One character of a numeral as `int` reads it. -/
def asciiChar (c : Char) : Char :=
  if c.toNat < 128 then c
  else if isSpace c then ' '
  else
    match u.decimal c with
    | some d => Char.ofNat ('0'.toNat + d)
    | none => '?'

theorem asciiNumeral_eq (s : Text) : u.asciiNumeral s = s.map (asciiChar u) := rfl

theorem asciiChar_ascii (h : c.toNat < 128) : asciiChar u c = c := if_pos h

/-- Only a space is read as a character below the digits. -/
theorem asciiChar_cases (c : Char) : asciiChar u c = c ∧ c.toNat < 128 ∨ isSpace c = true ∧ asciiChar u c = ' ' ∨
    (asciiChar u c).toNat = 0 ∨ 48 ≤ (asciiChar u c).toNat := by
  unfold asciiChar
  split
  · rename_i h
    exact .inl ⟨rfl, h⟩
  · split
    · rename_i h
      exact .inr (.inl ⟨h, rfl⟩)
    · split
      · rename_i d _
        have hzero : '0'.toNat = 48 := rfl
        by_cases hvalid : ('0'.toNat + d).isValidChar
        · have hchar : (Char.ofNat ('0'.toNat + d)).toNat = '0'.toNat + d := by
            rw [Char.ofNat, dif_pos hvalid]
            rfl
          exact .inr (.inr (.inr (by omega)))
        · rw [Char.ofNat, dif_neg hvalid]
          exact .inr (.inr (.inl rfl))
      · exact .inr (.inr (.inr (by decide)))

/-- A character below the digits that is no space stands for itself. -/
theorem asciiChar_eq_iff {d : Char} (hd : 0 < d.toNat ∧ d.toNat < 48 ∧ d ≠ ' ') : asciiChar u c = d ↔ c = d := by
  constructor
  · rintro rfl
    rcases asciiChar_cases u c with h | h | h | h
    · exact h.1.symm
    · exact absurd h.2 hd.2.2
    · omega
    · omega
  · rintro rfl
    exact asciiChar_ascii u (by omega)

theorem asciiChar_space (h : isSpace c = false) : isAsciiSpace (asciiChar u c) = false := by
  have hsub : ∀ d : Char, isAsciiSpace d = true → isSpace d = true := by
    intro d hd
    simp only [isAsciiSpace, isSpace, isWhitespace, Bool.or_eq_true, beq_iff_eq, Bool.and_eq_true,
      decide_eq_true_eq] at hd ⊢
    rcases hd with rfl | hd
    · decide
    · omega
  apply eq_false_of_ne_true
  intro hspace
  rcases asciiChar_cases u c with hc | hc | hc | hc
  · rw [hc.1] at hspace
    rw [hsub c hspace] at h
    cases h
  · rw [hc.1] at h
    cases h
  all_goals
    have hd : asciiChar u c ≠ ' ' := by
      intro heq
      rw [heq] at hc
      revert hc
      decide
    simp only [isAsciiSpace, Bool.or_eq_true, beq_iff_eq, hd, false_or, Bool.and_eq_true, decide_eq_true_eq] at hspace
    omega

theorem takeSign_map (s : Text) :
    takeSign (s.map (asciiChar u)) = ((takeSign s).1, (takeSign s).2.map (asciiChar u)) := by
  cases s with
  | nil => rfl
  | cons c s =>
    have hminus := asciiChar_eq_iff u (c := c) (d := '-') (by decide)
    have hplus := asciiChar_eq_iff u (c := c) (d := '+') (by decide)
    rw [takeSign_eq, takeSign_eq, List.map_cons, List.head?_cons, List.head?_cons]
    simp only [Option.some.injEq, hminus, hplus]
    split <;> rfl

/-- A grouped numeral begins with a digit. -/
theorem head_of_groupedDecimal {s : Text} (h : groupedDecimal s = some n) :
    ∃ c rest, s = c :: rest ∧ c.isDigit = true := by
  unfold groupedDecimal at h
  split at h
  · cases h
  · unfold groupedNumber at h
    split at h
    · cases h
    · rename_i hgroups
      obtain ⟨hne, hdigits⟩ := isDigit_of_readNumber h
      cases s with
      | nil => exact absurd rfl hne
      | cons c rest =>
        have hc : c ≠ '_' := by
          rintro rfl
          exact hgroups (.inl rfl)
        exact ⟨c, rest, rfl, hdigits c (List.mem_filter.2 ⟨List.mem_cons_self, decide_eq_true hc⟩)⟩

theorem reading_of_hexLiteral (htrimmed : Trimmed isSpace core) (hhex : isHexLiteral core = true)
    (h : u.int 16 core = some v) : Reading core v := by
  obtain ⟨m, hm⟩ := Option.isSome_iff_exists.1 (isHexLiteral_iff.1 hhex)
  rw [literalMagnitude, if_pos rfl] at hm
  obtain ⟨hex, hstrip, hread⟩ := Option.bind_eq_some_iff.1 hm
  obtain ⟨hne, hdigits⟩ := isSome_of_readNumber hread
  have hunderscore : '_' ∉ hex := fun hmem => absurd (hdigits '_' hmem) (by decide)
  have hascii : ∀ c ∈ core, c.toNat < 128 := by
    obtain ⟨x, hx, hbody⟩ := stripHexPrefix_eq_some hstrip
    have hall : ∀ c ∈ (takeSign core).2, c.toNat < 128 := by
      rw [hbody]
      intro c hc
      rcases List.mem_cons.1 hc with rfl | hc
      · decide
      · rcases List.mem_cons.1 hc with rfl | hc
        · rcases hx with rfl | rfl <;> decide
        · have := hexDigit_graphic (hdigits c hc)
          omega
    rcases sign_cases core with ⟨rest, rfl⟩ | ⟨rest, rfl⟩ | ⟨hminus, hplus⟩
    · exact List.forall_mem_cons.2 ⟨by decide, hall⟩
    · exact List.forall_mem_cons.2 ⟨by decide, hall⟩
    · rwa [takeSign_of_forall hminus hplus] at hall
  rw [int_ascii hascii htrimmed, readSign_eq] at h
  obtain ⟨n, hn, rfl⟩ := Option.map_eq_some_iff.1 h
  have hafter : afterBasePrefix hex = hex := by
    obtain ⟨c, rest, rfl⟩ := List.exists_cons_of_ne_nil hne
    unfold afterBasePrefix
    split
    · rename_i heq
      rw [heq] at hunderscore
      exact absurd List.mem_cons_self hunderscore
    · rfl
  unfold intMagnitude at hn
  rw [if_neg (by decide), if_pos rfl, hstrip, Option.map_some, Option.getD_some, hafter,
    groupedNumber_eq hunderscore] at hn
  refine reading_of_strip hstrip fun k hk => ?_
  rw [hn] at hk
  rw [Option.some.inj hk]

/-- What `int` reads of a decimal numeral. -/
theorem groupedDecimal_of_int (htrimmed : Trimmed isSpace core) (h : u.int 10 core = some v) :
    ∃ n, groupedDecimal ((takeSign core).2.map (asciiChar u)) = some n ∧
      v = if (takeSign core).1 then -(n : ℤ) else n := by
  rw [UnicodeData.int, asciiNumeral_eq] at h
  have hnumeral : Trimmed isAsciiSpace (core.map (asciiChar u)) := by
    constructor
    · intro c hc
      rw [List.head?_map] at hc
      obtain ⟨d, hd, rfl⟩ := Option.map_eq_some_iff.1 hc
      exact asciiChar_space u (htrimmed.1 d hd)
    · intro c hc
      rw [List.getLast?_map] at hc
      obtain ⟨d, hd, rfl⟩ := Option.map_eq_some_iff.1 hc
      exact asciiChar_space u (htrimmed.2 d hd)
  rw [trim_of_trimmed hnumeral, readSign_eq, takeSign_map] at h
  obtain ⟨n, hn, rfl⟩ := Option.map_eq_some_iff.1 h
  exact ⟨n, hn, rfl⟩

theorem reading_integerValue (h : integerValue u value = some v) : Reading (trim isSpace value) v := by
  have htrimmed := trimmed_trim isSpace value
  rw [integerValue] at h
  generalize trim isSpace value = core at *
  by_cases hhex : isHexLiteral core = true
  · rw [if_pos hhex] at h
    exact reading_of_hexLiteral u htrimmed hhex h
  · rw [if_neg hhex] at h
    obtain ⟨n, hn, rfl⟩ := groupedDecimal_of_int u htrimmed h
    obtain ⟨c, rest, hbody, hdigit⟩ := head_of_groupedDecimal hn
    obtain ⟨d, body, hcore, rfl, rfl⟩ := List.map_eq_cons_iff.1 hbody
    have hrange := isDigit_range hdigit
    refine ⟨⟨d, body, hcore, ?_, ?_, ?_⟩, fun base m hm => ?_⟩
    · apply eq_false_of_ne_true
      intro hspace
      have hascii : d.toNat < 128 := by
        simp only [isCSpace, Bool.or_eq_true, decide_eq_true_eq, Bool.and_eq_true] at hspace
        rcases hspace with rfl | hspace
        · decide
        · omega
      rw [asciiChar_ascii u hascii] at hrange
      simp only [isCSpace, Bool.or_eq_true, decide_eq_true_eq, Bool.and_eq_true] at hspace
      rcases hspace with rfl | hspace
      · revert hrange
        decide
      · omega
    · rintro rfl
      rw [asciiChar_ascii u (by decide)] at hdigit
      cases hdigit
    · rintro rfl
      rw [asciiChar_ascii u (by decide)] at hdigit
      cases hdigit
    · unfold literalMagnitude at hm
      split at hm
      · have hsome : (literalMagnitude 16 (takeSign core).2).isSome = true := by
          rw [literalMagnitude, if_pos rfl, hm]
          rfl
        exact absurd (isHexLiteral_iff.2 hsome) hhex
      · have hdigits := (isDigit_of_readNumber hm).2
        have hsame : (takeSign core).2.map (asciiChar u) = (takeSign core).2 := by
          conv_rhs => rw [← List.map_id (takeSign core).2]
          refine List.map_congr_left fun c hc => ?_
          have := isDigit_range (hdigits c hc)
          exact asciiChar_ascii u (by omega)
        have hunderscore : '_' ∉ (takeSign core).2 := fun hmem => absurd (hdigits '_' hmem) (by decide)
        rw [hsame] at hn
        rw [groupedDecimal_eq_some hunderscore hn] at hm
        rw [Option.some.inj hm]

theorem integerBounds_eq (hreal : type.isReal = false) :
    Engine.integerBounds (.scalar type) = some (integerRange type) := by
  cases type <;> revert hreal <;> decide

theorem checkNumericDomain_eq_ok {field : Text} {lo hi : ℤ} {line : ℕ}
    (h : Engine.checkNumericDomain field value (some (lo, hi)) line = .ok ()) :
    ∃ v, Engine.numericValue value = some v ∧ lo ≤ v ∧ v ≤ hi := by
  unfold Engine.checkNumericDomain at h
  dsimp only at h
  split at h
  · cases h
  · rename_i v hv
    split at h
    · cases h
    · rename_i hrange
      exact ⟨v, hv, not_lt.1 (not_or.1 hrange).1, not_lt.1 (not_or.1 hrange).2⟩

theorem validateInteger_eq_ok {param : Param} (h : validateInteger u param type value = .ok ()) :
    ∃ v, integerValue u value = some v ∧ (integerRange type).1 ≤ v ∧ v ≤ (integerRange type).2 := by
  unfold validateInteger at h
  split at h
  · cases h
  · rename_i v hv
    dsimp only at h
    split at h
    · cases h
    · split at h
      · cases h
      · rename_i hrange
        exact ⟨v, hv, not_lt.1 (not_or.1 hrange).1, not_lt.1 (not_or.1 hrange).2⟩

/-- **The harness decodes an accepted value like the validator exactly where its spelling is plain.** -/
theorem scalarAssignment_agrees (type : ScalarType) (hreal : type.isReal = false) (value : Text) :
    (∀ field line, Engine.checkNumericDomain field value (Engine.integerBounds (.scalar type)) line = .ok () →
      (scalarAssignment type value = Engine.numericValue value ↔ Spelled isWhitespace type value)) ∧
    (∀ param, validateInteger u param type value = .ok () →
      (scalarAssignment type value = integerValue u value ↔ Spelled isSpace type value)) := by
  constructor
  · intro field line h
    rw [integerBounds_eq hreal] at h
    obtain ⟨v, hv, hrange⟩ := checkNumericDomain_eq_ok h
    rw [hv]
    exact scalarAssignment_iff spaceClass_isWhitespace hreal (reading_numericValue hv) hrange
  · intro param h
    obtain ⟨v, hv, hrange⟩ := validateInteger_eq_ok u h
    rw [hv]
    exact scalarAssignment_iff spaceClass_isSpace hreal (reading_integerValue u hv) hrange

end Python

theorem scalarAssignment_agrees_uint :
    scalarAssignment .uint " 0x1F ".toList = Engine.numericValue " 0x1F ".toList :=
  ((scalarAssignment_agrees asciiData .uint rfl " 0x1F ".toList).1 [] 0 (by decide)).2 (by decide +kernel)

/-- A minus sign before a zero is accepted for an unsigned field, and a grouped numeral by `int`; the harness
refuses both. -/
theorem scalarAssignment_disagrees :
    Engine.checkNumericDomain "X".toList "-0".toList (Engine.integerBounds (.scalar .uint)) 1 = .ok () ∧
      Engine.numericValue "-0".toList = some 0 ∧ scalarAssignment .uint "-0".toList = none ∧
      (∀ param, validateInteger asciiData param .int "1_0".toList = .ok ()) ∧
      integerValue asciiData "1_0".toList = some 10 ∧ scalarAssignment .int "1_0".toList = none := by
  refine ⟨by decide, by decide, by decide, fun param => rfl, by decide, by decide⟩

end SemantiST.Harness
