import SemantiST.Corpus.Records
import SemantiST.Engine.Serialize

/-!
# The canonical text is read back

Every line of a canonical text is the record of one assignment, as long as its values are plain.
-/

namespace SemantiST.Corpus

open Lib
open Engine (record frameName)

/-! ## Numbers -/

section Numbers

variable {u : UnicodeData} {n : ℕ} {s : Text}

/-- The numbers that are short enough for `int`. -/
def indexBound : ℕ := 10 ^ maxStrDigits

theorem length_decimal_le : (decimal n).length ≤ maxStrDigits ↔ n < indexBound :=
  Nat.length_toDigits_le_iff (by decide) (by decide)

theorem decimal_chars {c : Char} (h : c ∈ decimal n) : 48 ≤ c.toNat ∧ c.toNat ≤ 57 :=
  isDigit_range (isDigit_of_mem_decimal h)

theorem underscore_notMem_decimal : '_' ∉ decimal n := fun h => absurd (decimal_chars h) (by decide)

theorem isSpace_of_range {c : Char} (h : 48 ≤ c.toNat ∧ c.toNat ≤ 122) : isSpace c = false :=
  isSpace_graphic (by omega)

theorem trimmed_decimal : Trimmed isSpace (decimal n) :=
  trimmed_of_forall fun c hc => isSpace_of_range (by have := decimal_chars hc; omega)

theorem groupedDecimal_decimal (h : n < indexBound) : groupedDecimal (decimal n) = some n := by
  have hfilter : ((decimal n).filter fun c => c ≠ '_') = decimal n :=
    List.filter_eq_self.2 fun c hc => decide_eq_true fun he => underscore_notMem_decimal (he ▸ hc)
  rw [groupedDecimal, hfilter, if_neg (by have := length_decimal_le.2 h; omega),
    groupedNumber_eq underscore_notMem_decimal, readNumber_decimal]

theorem int_decimal (h : n < indexBound) : u.int 10 (decimal n) = some (n : ℤ) := by
  have hmagnitude : intMagnitude 10 (decimal n) = some n := by
    unfold intMagnitude
    rw [if_pos rfl, groupedDecimal_decimal h]
  rw [int_ascii (fun c hc => by have := decimal_chars hc; omega) trimmed_decimal,
    readSign_of_isDigit decimal_ne_nil fun c => isDigit_of_mem_decimal, hmagnitude]
  rfl

theorem decDigit_lt {c : Char} {d : ℕ} (h : decDigit c = some d) : d < 10 := by
  unfold decDigit at h
  split at h
  · rename_i hc
    have hrange := isDigit_range hc
    have hd : c.toNat - 48 = d := Option.some.inj h
    omega
  · cases h

/-- A numeral is below the power of ten of its length. -/
theorem readDigits_lt {m : ℕ} (h : readDigits decDigit 10 m s = some n) : n < (m + 1) * 10 ^ s.length := by
  induction s generalizing m with
  | nil =>
    obtain rfl := Option.some.inj h
    simp
  | cons c s ih =>
    obtain ⟨d, hd, h⟩ := Option.bind_eq_some_iff.1 h
    have hlt := decDigit_lt hd
    calc n < (10 * m + d + 1) * 10 ^ s.length := ih h
      _ ≤ ((m + 1) * 10) * 10 ^ s.length := Nat.mul_le_mul_right _ (by omega)
      _ = (m + 1) * 10 ^ (c :: s).length := by rw [List.length_cons, pow_succ, mul_assoc, mul_comm 10]

theorem readNumber_lt (h : readNumber decDigit 10 s = some n) : n < 10 ^ s.length := by
  unfold readNumber at h
  split at h
  · cases h
  · simpa using readDigits_lt h

/-- A numeral has no zero in front of other digits. -/
theorem decimal_head_zero {rest : Text} (h : decimal n = '0' :: rest) : n = 0 := by
  have hread := readNumber_decimal n
  rw [h] at hread
  cases rest with
  | nil => exact (Option.some.inj hread).symm
  | cons c rest =>
    -- without the zero the numeral would be shorter than that of its value
    have hrest : readNumber decDigit 10 (c :: rest) = some n := hread
    have hlength : (decimal n).length ≤ (c :: rest).length :=
      (Nat.length_toDigits_le_iff (by decide) (by simp)).2 (readNumber_lt hrest)
    rw [h, List.length_cons] at hlength
    omega

theorem int_zero_decimal (h : n < indexBound) : u.int 0 (decimal n) = some (n : ℤ) := by
  have hsecond {c d : Char} {rest : Text} (hs : decimal n = c :: d :: rest) : d.isDigit = true :=
    isDigit_of_mem_decimal (n := n) (by simp [hs])
  have hmagnitude : intMagnitude 0 (decimal n) = some n := by
    unfold intMagnitude
    rw [if_neg (by decide), if_neg (by decide)]
    split
    · exact absurd (hsecond (by assumption)) (by decide)
    · exact absurd (hsecond (by assumption)) (by decide)
    · exact absurd (hsecond (by assumption)) (by decide)
    · exact absurd (hsecond (by assumption)) (by decide)
    · exact absurd (hsecond (by assumption)) (by decide)
    · exact absurd (hsecond (by assumption)) (by decide)
    · rename_i hzero
      rw [groupedDecimal_decimal h, decimal_head_zero hzero]
      rfl
    · exact groupedDecimal_decimal h
  rw [int_ascii (fun c hc => by have := decimal_chars hc; omega) trimmed_decimal,
    readSign_of_isDigit decimal_ne_nil fun c => isDigit_of_mem_decimal, hmagnitude]
  rfl

/-- What `int` reads in base ten is short enough to be read again. -/
theorem int_lt_indexBound {n : ℤ} (h : u.int 10 s = some n) : n.toNat < indexBound := by
  have hmagnitude {t : Text} {m : ℕ} (hm : intMagnitude 10 t = some m) : m < indexBound := by
    unfold intMagnitude at hm
    rw [if_pos rfl, groupedDecimal] at hm
    split at hm
    · cases hm
    · rename_i hlength
      unfold groupedNumber at hm
      split at hm
      · cases hm
      · exact (readNumber_lt hm).trans_le (Nat.pow_le_pow_right (by decide) (not_lt.1 hlength))
  rw [UnicodeData.int] at h
  unfold readSign at h
  split at h
  · obtain ⟨m, hm, rfl⟩ := Option.map_eq_some_iff.1 h
    have : (0 : ℕ) < indexBound := Nat.pow_pos (by decide)
    omega
  · obtain ⟨m, hm, rfl⟩ := Option.map_eq_some_iff.1 h
    exact hmagnitude hm
  · obtain ⟨m, hm, rfl⟩ := Option.map_eq_some_iff.1 h
    exact hmagnitude hm

end Numbers

/-! ## Plain values -/

/-- A value that stays what it is when a record is written and read back. -/
def Plain (v : Text) : Prop := Trimmed isSpace v ∧ ∀ c ∈ v, isLineBreak c = false

instance (v : Text) : Decidable (Plain v) := by
  unfold Plain
  exact @instDecidableAnd _ _ _ (List.decidableBAll _ _)

section Lines

variable {ls : List Text} {name token value field : Text} {n : ℕ}

theorem isLineBreak_of_range {c : Char} (h : 33 ≤ c.toNat ∧ c.toNat ≤ 122) : isLineBreak c = false := by
  simp only [isLineBreak, Bool.or_eq_false_iff, Bool.and_eq_false_iff, decide_eq_false_iff_not, beq_eq_false_iff_ne]
  omega

theorem plain_of_chars {v : Text} (h : ∀ c ∈ v, 33 ≤ c.toNat ∧ c.toNat ≤ 122) : Plain v :=
  ⟨trimmed_of_forall fun c hc => isSpace_graphic (by have := h c hc; omega),
    fun c hc => isLineBreak_of_range (h c hc)⟩

/-- The characters of names, type tokens and frame numbers. -/
def Graphic (s : Text) : Prop := ∀ c ∈ s, 45 < c.toNat ∧ c.toNat ≤ 122

instance (s : Text) : Decidable (Graphic s) := by
  unfold Graphic
  exact List.decidableBAll _ _

theorem graphic_isIdent (h : isIdent name = true) : Graphic name :=
  fun c hc => by have := (isIdent_chars h).2 c hc; omega

theorem graphic_typeToken (spec : TypeSpec) : Graphic spec.typeToken :=
  fun c hc => by have := Engine.typeToken_chars spec c hc; omega

theorem graphic_frameName (h : Graphic field) : Graphic (frameName n field) := by
  intro c hc
  rcases List.mem_append.1 hc with hc | hc
  · have := decimal_chars hc
    omega
  · rcases List.mem_cons.1 hc with rfl | hc
    · decide
    · exact h c hc

theorem Graphic.trimmed (h : Graphic name) : Trimmed isSpace name :=
  trimmed_of_forall fun c hc => isSpace_graphic (by have := h c hc; omega)

theorem Graphic.comma (h : Graphic name) : ',' ∉ name := fun hmem => absurd (h _ hmem) (by decide)

theorem Graphic.ascii (h : Graphic name) : ∀ c ∈ name, c.toNat < 128 := fun c hc => by
  have := h c hc
  omega

/-- A record is one line. -/
theorem record_oneLine (hname : Graphic name) (htoken : Graphic token) (hvalue : Plain value) :
    ∀ c ∈ record name token value, isLineBreak c = false := by
  intro c hc
  have graphic {s : Text} (hs : Graphic s) (hmem : c ∈ s) : isLineBreak c = false :=
    isLineBreak_of_range (by have := hs c hmem; omega)
  rcases List.mem_append.1 hc with hc | hc
  · exact graphic hname hc
  · rcases List.mem_cons.1 hc with rfl | hc
    · decide
    · rcases List.mem_append.1 hc with hc | hc
      · exact graphic htoken hc
      · rcases List.mem_cons.1 hc with rfl | hc
        · decide
        · exact hvalue.2 c hc

variable {u : UnicodeData} {abi : TargetAbi} {p : Param}

theorem splitRecord_record (hname : Graphic name) (hne : name ≠ []) (htoken : Graphic token) (hvalue : Plain value) :
    splitRecord u (record name token value) = .ok (name, u.upperText token, value) := by
  rw [splitRecord, record, splitOnce_append hname.comma]
  dsimp only
  rw [splitOnce_append htoken.comma]
  dsimp only
  rw [trim_of_trimmed hname.trimmed, trim_of_trimmed htoken.trimmed, trim_of_trimmed hvalue.1, if_neg hne]

/-- What is read of the line of a record. -/
theorem readLine_record (hname : Graphic name) (hne : name ≠ []) (htoken : Graphic token) (hvalue : Plain value) :
    readLine u abi (record name token value) =
      (do
        let (cycle, field) ← splitCycleName u name
        match cycle with
        | none => some <$> readShared u abi field (u.upperText token) value
        | some cycle => some <$> readFrame u abi cycle field (u.upperText token) value) := by
  have htrim := trim_of_trimmed (Engine.trimmed_record (by decide) token hname.trimmed hvalue.1)
  have hrecord : record name token value ≠ [] := by
    rw [record]
    simp
  rw [readLine, htrim]
  dsimp only
  rw [if_neg hrecord, splitRecord_record hname hne htoken hvalue]
  rfl

theorem splitCycleName_ident (h : isIdent name = true) : splitCycleName u name = .ok (none, name) := by
  have hnone : cyclePrefix u name = none := by
    rcases hcycle : cyclePrefix u name with _ | ⟨digits, field⟩
    · rfl
    · obtain ⟨rfl, -, -⟩ := cyclePrefix_eq_some hcycle
      exact absurd (List.mem_append_right _ List.mem_cons_self) (not_mem_isIdent h (c := '.') (by decide))
  rw [splitCycleName, hnone]

theorem splitCycleName_frameName (hn : n < indexBound) (h : Graphic field) (hne : field ≠ []) :
    splitCycleName u (frameName n field) = .ok (some n, field) := by
  have hdigits : (frameName n field).takeWhile (fun c => (u.decimal c).isSome) = decimal n := by
    have hdecimal (c : Char) (hc : c.toNat < 128) : (u.decimal c).isSome = c.isDigit := by
      rw [u.decimal_ascii c hc, decDigit_isSome]
    rw [frameName, List.takeWhile_append_of_pos, List.takeWhile_cons, if_neg, List.append_nil]
    · rw [hdecimal '.' (by decide)]
      decide
    · intro c hc
      rw [hdecimal c (by have := decimal_chars hc; omega)]
      exact isDigit_of_mem_decimal hc
  have hcycle : cyclePrefix u (frameName n field) = some (decimal n, field) := by
    rw [cyclePrefix, hdigits, frameName, List.drop_left]
    exact if_pos ⟨decimal_ne_nil, hne, fun hmem => absurd (h _ hmem) (by decide)⟩
  rw [splitCycleName, hcycle]
  dsimp only
  rw [int_decimal hn]
  rfl

/-- Parameters are found by their names. -/
theorem byUpperName_eq_some {params : List Param} (hparams : ∀ q ∈ params, q ∈ abi.stateFields ++ abi.params)
    (hp : p ∈ params) : byUpperName u params (u.upperText p.name) = some p := by
  have ascii {q : Param} (hq : q ∈ params) : u.upperText q.name = toAsciiUppercase q.name :=
    upperText_ascii (graphic_isIdent (isFieldName_isIdent (abi.fieldName q (hparams q hq)))).ascii
  rcases hfind : byUpperName u params (u.upperText p.name) with _ | q
  · rw [byUpperName, List.find?_eq_none] at hfind
    exact absurd (decide_eq_true rfl) (hfind p (List.mem_reverse.2 hp))
  · obtain ⟨hq, hname⟩ := mem_of_byUpperName hfind
    rw [ascii hq, ascii hp] at hname
    rw [abi.oneName q (hparams q hq) p (hparams p hp) (eqIgnoreAsciiCase_iff_upper.2 hname)]

theorem upper_ne_reserved (hp : p ∈ abi.stateFields ++ abi.params) :
    u.upperText p.name ≠ reservedInit ∧ u.upperText p.name ≠ reservedDt := by
  have hfield := abi.fieldName p hp
  rw [upperText_ascii (graphic_isIdent (isFieldName_isIdent hfield)).ascii]
  simp only [isFieldName, Bool.and_eq_true, Bool.not_eq_true'] at hfield
  obtain ⟨⟨-, hinit⟩, hdt⟩ := hfield
  have upper {reserved : Text} (hreserved : toAsciiUppercase reserved = reserved)
      (h : eqIgnoreAsciiCase p.name reserved = false) : toAsciiUppercase p.name ≠ reserved := by
    intro heq
    rw [eqIgnoreAsciiCase_iff_upper.2 (heq.trans hreserved.symm)] at h
    cases h
  exact ⟨upper (by decide) hinit, upper (by decide) hdt⟩

/-- **The record of a shared field is read back.** -/
theorem readLine_sharedRecord (hp : p ∈ abi.sharedParams) (hvalue : Plain value) :
    readLine u abi (record p.name p.spec.typeToken value) = .ok (some (.shared p.name value)) := by
  have hmem := TargetAbi.mem_of_mem_sharedParams hp
  have hident := isFieldName_isIdent (abi.fieldName p hmem)
  rw [readLine_record (graphic_isIdent hident) (isIdent_chars hident).1 (graphic_typeToken _) hvalue,
    splitCycleName_ident hident]
  have hread : readShared u abi p.name (u.upperText p.spec.typeToken) value = .ok (.shared p.name value) :=
    readShared_eq_ok.2 (Or.inr ⟨(upper_ne_reserved hmem).1, p,
      byUpperName_eq_some (fun q => TargetAbi.mem_of_mem_sharedParams) hp, Or.inr rfl, rfl⟩)
  exact congrArg (some <$> ·) hread

/-- **The record of a field of a frame is read back.** -/
theorem readLine_fieldRecord (hp : p ∈ abi.frameActionParams) (hn : n < indexBound) (hvalue : Plain value) :
    readLine u abi (record (frameName n p.name) p.spec.typeToken value) = .ok (some (.field n p.name value)) := by
  have hmem := TargetAbi.mem_of_mem_frameActionParams hp
  have hident := isFieldName_isIdent (abi.fieldName p hmem)
  have hgraphic := graphic_isIdent hident
  rw [readLine_record (graphic_frameName hgraphic) (by simp [frameName]) (graphic_typeToken _) hvalue,
    splitCycleName_frameName hn hgraphic (isIdent_chars hident).1]
  have hread : readFrame u abi n p.name (u.upperText p.spec.typeToken) value = .ok (.field n p.name value) :=
    readFrame_eq_ok.2 (Or.inr ⟨(upper_ne_reserved hmem).2, p,
      byUpperName_eq_some (fun q => TargetAbi.mem_of_mem_frameActionParams) hp, Or.inr rfl, rfl⟩)
  exact congrArg (some <$> ·) hread

theorem parseDt_intText {dt : ℤ} (h0 : 0 ≤ dt) (h64 : dt ≤ u64Max) : parseDt u (intText dt) = .ok dt := by
  obtain ⟨n, rfl⟩ := Int.eq_ofNat_of_zero_le h0
  have hn : n < indexBound := by
    have : u64Max < indexBound := by decide +kernel
    omega
  have htext : intText (n : ℤ) = decimal n := by
    rw [intText, if_neg (by omega), Int.natAbs_natCast]
  have htime : stripTimePrefix (decimal n) = none := by
    have hfirst {c : Char} {rest : Text} (hs : decimal n = c :: rest) : c.isDigit = true :=
      isDigit_of_mem_decimal (n := n) (by simp [hs])
    unfold stripTimePrefix
    split
    · exact absurd (hfirst (by assumption)) (by decide)
    · exact absurd (hfirst (by assumption)) (by decide)
    · rfl
  rw [parseDt, htext, trim_of_trimmed trimmed_decimal, htime, int_zero_decimal hn]
  rfl

/-- **The time step of a frame is read back.** -/
theorem readLine_dtRecord {dt : ℤ} (hn : n < indexBound) (h0 : 0 ≤ dt) (h64 : dt ≤ u64Max) :
    readLine u abi (record (frameName n reservedDt) "TIME".toList (intText dt)) = .ok (some (.dt n dt)) := by
  have hgraphic : Graphic reservedDt := by decide
  have hvalue : Plain (intText dt) := by
    apply plain_of_chars
    intro c hc
    rw [intText, if_neg (by omega)] at hc
    have := decimal_chars hc
    omega
  rw [readLine_record (graphic_frameName hgraphic) (by simp [frameName]) (by decide) hvalue,
    splitCycleName_frameName hn hgraphic (by decide)]
  have hupper : u.upperText reservedDt = reservedDt := by
    rw [upperText_ascii hgraphic.ascii]
    decide
  have hread : readFrame u abi n reservedDt (u.upperText "TIME".toList) (intText dt) = .ok (.dt n dt) :=
    readFrame_eq_ok.2 (Or.inl ⟨hupper, Or.inr rfl, dt, parseDt_intText h0 h64, rfl⟩)
  exact congrArg (some <$> ·) hread

end Lines

end SemantiST.Corpus
