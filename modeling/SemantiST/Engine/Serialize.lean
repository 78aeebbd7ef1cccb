import Mathlib.Data.List.ModifyLast
import SemantiST.Engine.Bundle
import SemantiST.Engine.ParseLemmas

/-!
# Texts of the stage

The stage executes texts that `serialize` wrote from a `V3Input`.  Its lines are records that the
parser cuts up the way they were put together, so the shared map that is parsed is the one that
was written, and the records `init` is given are a function of it.
-/

namespace SemantiST.Engine

open Lib

/-! ## Plain names and values -/

/-- A value that stays what it is when a record is written and read back. -/
def PlainValue (v : Text) : Prop := Trimmed isWhitespace v ∧ '\n' ∉ v

instance (v : Text) : Decidable (PlainValue v) := by unfold PlainValue; infer_instance

/-- A name that stays a shared record's name when a record is written and read back. -/
structure PlainName (k : Text) : Prop where
  trimmed : Trimmed isWhitespace k
  comma : ',' ∉ k
  dot : '.' ∉ k
  newline : '\n' ∉ k
  hash : k.head? ≠ some '#'
  init : eqIgnoreAsciiCase k reservedInit = false

/-- Every value of the map is plain. -/
def AllPlain (m : Values) : Prop := ∀ (k v : Text), m[k]? = some v → PlainValue v

variable {abi : TargetAbi} {k v name token value s : Text} {m : Values}

theorem isWhitespace_of_range {c : Char} (h : 48 ≤ c.toNat ∧ c.toNat ≤ 122) :
    isWhitespace c = false := by
  simp only [isWhitespace, Bool.or_eq_false_iff, Bool.and_eq_false_iff, decide_eq_false_iff_not,
    beq_eq_false_iff_ne]
  omega

theorem trimmed_isIdent (h : isIdent s = true) : Trimmed isWhitespace s :=
  trimmed_of_forall fun c hc => isWhitespace_of_range ((isIdent_chars h).2 c hc)

theorem plainName_of_isFieldName (h : isFieldName k = true) : PlainName k where
  trimmed := trimmed_isIdent (isFieldName_isIdent h)
  comma := not_mem_isIdent (isFieldName_isIdent h) (by decide)
  dot := not_mem_isIdent (isFieldName_isIdent h) (by decide)
  newline := not_mem_isIdent (isFieldName_isIdent h) (by decide)
  hash hk := not_mem_isIdent (isFieldName_isIdent h) (c := '#') (by decide) (List.mem_of_mem_head? hk)
  init := by
    simp only [isFieldName, Bool.and_eq_true, Bool.not_eq_true'] at h
    exact h.1.2

/-- A text of the stage comes from frames and a shared map whose names and values are plain, as
parsing a seed yields them and mutation keeps them. -/
structure V3Input (abi : TargetAbi) where
  frames : List Frame
  shared : Values
  plainName : ∀ k ∈ shared, PlainName k
  canonical : ∀ k ∈ shared, canonicalName (schema abi).sharedTypes k = k
  plainShared : AllPlain shared
  plainFrames : ∀ frame ∈ frames, AllPlain frame.values

/-! ## Lines -/

theorem trimmed_record {ws : Char → Bool} (hcomma : ws ',' = false) (token : Text) (hname : Trimmed ws name)
    (hvalue : Trimmed ws value) : Trimmed ws (record name token value) := by
  constructor
  · intro c hc
    cases name with
    | nil =>
      obtain rfl : ',' = c := by simpa [record] using hc
      exact hcomma
    | cons d name => exact hname.1 c (by simpa [record] using hc)
  · intro c hc
    have hlast : (record name token value).getLast? = (',' :: value).getLast? := by
      rw [record, show name ++ ',' :: (token ++ ',' :: value) =
        (name ++ ',' :: token) ++ (',' :: value) by simp]
      simp [List.getLast?_cons]
    rw [hlast] at hc
    cases hv : value.getLast? with
    | none =>
      have : value = [] := by simpa using hv
      obtain rfl : ',' = c := by simpa [this] using hc
      exact hcomma
    | some d =>
      refine hvalue.2 c ?_
      rw [List.getLast?_cons, hv] at hc
      simpa [hv] using hc

theorem newline_record (hname : '\n' ∉ name) (htoken : '\n' ∉ token) (hvalue : '\n' ∉ value) :
    '\n' ∉ record name token value := by
  simp [record, hname, htoken, hvalue]

/-- A trimmed line does not end with a carriage return. -/
theorem getLast?_ne_of_trimmed (h : Trimmed isWhitespace s) : s.getLast? ≠ some '\r' := by
  intro hs
  have := h.2 '\r' hs
  revert this
  decide

/-- **A record is read back.** -/
theorem lineRecord_record (hname : Trimmed isWhitespace name) (hcomma : ',' ∉ name)
    (hhash : name.head? ≠ some '#') (htoken : ',' ∉ token) (hvalue : Trimmed isWhitespace value) :
    lineRecord (record name token value) =
      some (name, toAsciiUppercase (trim isWhitespace token), value) := by
  have htrim := trim_of_trimmed (trimmed_record (by decide) token hname hvalue)
  have hne : ¬(record name token value = [] ∨ (record name token value).head? = some '#') := by
    rintro (h | h)
    · simp [record] at h
    · cases name with
      | nil => simp [record] at h
      | cons c name => exact hhash (by simpa [record] using h)
  simp only [lineRecord, htrim, if_neg hne]
  rw [record, splitOnce_append hcomma, Option.map_some, splitOnce_append htoken]
  simp [trim_of_trimmed hname, trim_of_trimmed hvalue]

/-! ## The lines of `serialize` -/

theorem chars_of_all (h : s.all (fun c => 48 ≤ c.toNat && c.toNat ≤ 122) = true) :
    ∀ c ∈ s, 48 ≤ c.toNat ∧ c.toNat ≤ 122 := by
  simpa using h

theorem typeToken_chars (spec : TypeSpec) : ∀ c ∈ spec.typeToken, 48 ≤ c.toNat ∧ c.toNat ≤ 122 := by
  apply chars_of_all
  cases spec with
  | scalar t => cases t <;> decide
  | string wide length => cases wide <;> rfl
  | array element count => rfl
  | pointer element => rfl
  | aggregate n size => rfl

theorem not_mem_typeToken (spec : TypeSpec) {c : Char} (hc : c.toNat < 48 ∨ 122 < c.toNat) :
    c ∉ spec.typeToken := by
  intro h
  have := typeToken_chars spec c h
  omega

theorem not_mem_sharedToken {c : Char} (hc : c.toNat < 48 ∨ 122 < c.toNat) :
    c ∉ sharedToken abi name := by
  unfold sharedToken
  cases abi.sharedParams.find? fun field => field.name = name with
  | none => simp
  | some p => exact not_mem_typeToken p.spec hc

theorem decimal_range {n : ℕ} {c : Char} (h : c ∈ decimal n) : 48 ≤ c.toNat ∧ c.toNat ≤ 122 :=
  identChar_range (by simp [isDigit_of_mem_decimal h])

theorem trimmed_frameName {ws : Char → Bool} (hws : ∀ {c : Char}, 48 ≤ c.toNat ∧ c.toNat ≤ 122 → ws c = false) {n : ℕ}
    {field : Text} (hf : isIdent field = true) : Trimmed ws (frameName n field) := by
  have hne := (isIdent_chars hf).1
  constructor
  · intro c hc
    have hd : decimal n ≠ [] := decimal_ne_nil
    have : c ∈ decimal n := by
      cases h : decimal n with
      | nil => exact absurd h hd
      | cons d ds =>
        obtain rfl : d = c := by simpa [frameName, h] using hc
        exact List.mem_cons_self
    exact hws (decimal_range this)
  · intro c hc
    have : c ∈ field := by
      have hl : (frameName n field).getLast? = field.getLast? := by
        cases field with
        | nil => exact absurd rfl hne
        | cons d ds =>
          rw [frameName, show decimal n ++ '.' :: d :: ds = (decimal n ++ ['.']) ++ (d :: ds) by simp,
            List.getLast?_append_of_ne_nil _ (List.cons_ne_nil _ _)]
      rw [hl] at hc
      exact List.mem_of_mem_getLast? hc
    exact hws ((isIdent_chars hf).2 c this)

/-- A line of a frame: a record of plain value whose name has the frame number before a dot. -/
theorem frameLines_cases {index : ℕ} {frame : Frame} {l : Text} (hframe : AllPlain frame.values)
    (h : l ∈ frameLines abi index frame) :
    ∃ field token value, l = record (frameName index field) token value ∧
      isIdent field = true ∧ (∀ c ∈ token, 48 ≤ c.toNat ∧ c.toNat ≤ 122) ∧ PlainValue value := by
  unfold frameLines at h
  rcases List.mem_append.1 h with h | h
  · obtain ⟨p, hp, rfl⟩ := List.mem_map.1 h
    refine ⟨p.name, _, _, rfl,
      isFieldName_isIdent (abi.fieldName p (TargetAbi.mem_of_mem_frameActionParams hp)),
      typeToken_chars p.spec, ?_⟩
    cases hv : frame.values[p.name]? with
    | none =>
      cases hs : p.spec with
      | scalar t => cases t <;> decide
      | string w n => exact (by decide : PlainValue "A".toList)
      | array e n => exact (by decide : PlainValue "0x00".toList)
      | pointer e => exact (by decide : PlainValue "0x00".toList)
      | aggregate n k => exact (by decide : PlainValue "0x00".toList)
    | some v => exact hframe p.name v hv
  · cases hdt : frame.dtNs with
    | none => simp [hdt] at h
    | some dt =>
      simp only [hdt, List.mem_singleton] at h
      refine ⟨reservedDt, "TIME".toList, decimal dt, h, by decide, chars_of_all (by decide), ?_, ?_⟩
      · exact trimmed_of_forall fun c hc => isWhitespace_of_range (decimal_range hc)
      · intro hn
        have := decimal_range hn
        revert this
        decide

theorem not_mem_frameName {n : ℕ} {field : Text} (hf : isIdent field = true) {c : Char}
    (hc : c.toNat < 48 ∨ 122 < c.toNat) (hdot : c ≠ '.') : c ∉ frameName n field := by
  intro h
  rcases List.mem_append.1 h with h | h
  · have := decimal_range h
    omega
  · rcases List.mem_cons.1 h with h | h
    · exact hdot h
    · exact not_mem_isIdent hf hc h

theorem comma_frameName {n : ℕ} {field : Text} (hf : isIdent field = true) :
    ',' ∉ frameName n field := not_mem_frameName hf (by decide) (by decide)

theorem hash_frameName {n : ℕ} {field : Text} : (frameName n field).head? ≠ some '#' := by
  intro h
  cases hd : decimal n with
  | nil => exact absurd hd decimal_ne_nil
  | cons d ds =>
    obtain rfl : d = '#' := by simpa [frameName, hd] using h
    have := decimal_range (n := n) (c := '#') (by rw [hd]; exact List.mem_cons_self)
    revert this
    decide

theorem dot_frameName {n : ℕ} {field : Text} : '.' ∈ frameName n field := by simp [frameName]

/-- A name with a dot is not the name of the init record. -/
theorem not_init_of_dot (h : '.' ∈ name) : eqIgnoreAsciiCase name reservedInit = false := by
  by_contra hne
  rw [Bool.not_eq_false, eqIgnoreAsciiCase_iff] at hne
  have hmem : '.' ∈ name.map Char.toLower := List.mem_map.2 ⟨'.', h, by decide⟩
  rw [hne] at hmem
  revert hmem
  decide

theorem token_of_range {c : Char} (h : ∀ d ∈ token, 48 ≤ d.toNat ∧ d.toNat ≤ 122)
    (hc : c.toNat < 48 ∨ 122 < c.toNat) : c ∉ token := fun hmem => by
  have := h c hmem
  omega

/-- What the parser reads off a line of a frame. -/
theorem lineRecord_frameLine {index : ℕ} {field value : Text} (hf : isIdent field = true)
    (ht : ∀ c ∈ token, 48 ≤ c.toNat ∧ c.toNat ≤ 122) (hv : PlainValue value) :
    lineRecord (record (frameName index field) token value) =
      some (frameName index field, toAsciiUppercase (trim isWhitespace token), value) :=
  lineRecord_record (trimmed_frameName @isWhitespace_of_range hf) (comma_frameName hf) hash_frameName
    (token_of_range ht (by decide)) hv.1

/-- A line of a frame is none of the shared records. -/
theorem isSharedLine_frameLine {index : ℕ} {field value : Text} (hf : isIdent field = true) :
    isSharedLine (record (frameName index field) token value) = false := by
  have hfirst : firstPart (record (frameName index field) token value) = frameName index field := by
    rw [firstPart, record, splitOnce_append (comma_frameName hf)]
    rfl
  simp only [isSharedLine, hfirst, trim_of_trimmed (trimmed_frameName @isWhitespace_of_range hf)]
  simp [dot_frameName]

/-! ## A serialized text -/

variable (input : V3Input abi)

/-- The lines of the frames of an input. -/
def V3Input.frameText : List Text := input.frames.zipIdx.flatMap fun p => frameLines abi p.2 p.1

theorem V3Input.mem_frameText {l : Text} (h : l ∈ input.frameText) :
    ∃ index field token value, l = record (frameName index field) token value ∧
      isIdent field = true ∧ (∀ c ∈ token, 48 ≤ c.toNat ∧ c.toNat ≤ 122) ∧ PlainValue value := by
  obtain ⟨p, hp, hl⟩ := List.mem_flatMap.1 h
  have hframe := input.plainFrames p.1 (List.fst_mem_of_mem_zipIdx hp)
  obtain ⟨field, token, value, hrec⟩ := frameLines_cases hframe hl
  exact ⟨p.2, field, token, value, hrec⟩

theorem V3Input.mem_shared {p : Text × Text} (h : p ∈ input.shared.toList) :
    PlainName p.1 ∧ canonicalName (schema abi).sharedTypes p.1 = p.1 ∧ PlainValue p.2 := by
  have hv := Std.ExtTreeMap.mem_toList_iff_getElem?_eq_some.1 h
  have hk : p.1 ∈ input.shared := by
    rw [Std.ExtTreeMap.mem_iff_isSome_getElem?, hv]
    rfl
  exact ⟨input.plainName p.1 hk, input.canonical p.1 hk, input.plainShared p.1 p.2 hv⟩

/-- The lines of a serialized text are read back. -/
theorem V3Input.lines_serialize :
    lines (serialize abi input.frames input.shared) =
      sharedLines abi input.shared ++ input.frameText := by
  refine lines_unlines fun l hl => ?_
  rcases List.mem_append.1 hl with hl | hl
  · obtain ⟨p, hp, rfl⟩ := List.mem_map.1 hl
    obtain ⟨hk, -, hv⟩ := input.mem_shared hp
    exact ⟨newline_record hk.newline (not_mem_sharedToken (by decide)) hv.2,
      getLast?_ne_of_trimmed (trimmed_record (by decide) _ hk.trimmed hv.1)⟩
  · obtain ⟨index, field, token, value, rfl, hf, ht, hv⟩ := input.mem_frameText hl
    have hn : '\n' ∉ frameName index field := not_mem_frameName hf (by decide) (by decide)
    exact ⟨newline_record hn (token_of_range ht (by decide)) hv.2,
      getLast?_ne_of_trimmed (trimmed_record (by decide) _ (trimmed_frameName @isWhitespace_of_range hf) hv.1)⟩

/-- **The records `init` is given depend on the shared map only.** -/
theorem V3Input.sharedRecords_serialize :
    sharedRecords (serialize abi input.frames input.shared) =
      ['\n'].intercalate ((sharedLines abi input.shared).filter isSharedLine) := by
  have hframes : input.frameText.filter isSharedLine = [] := by
    rw [List.filter_eq_nil_iff]
    intro l hl
    obtain ⟨index, field, token, value, rfl, hf, -, -⟩ := input.mem_frameText hl
    rw [isSharedLine_frameLine hf]
    exact Bool.false_ne_true
  rw [sharedRecords, input.lines_serialize, List.filter_append, hframes, List.append_nil]

theorem parse_sharedLines {ps : List (Text × Text)} {n : ℕ} {st st' : ParseState}
    (hps : ∀ p ∈ ps, PlainName p.1 ∧ canonicalName (schema abi).sharedTypes p.1 = p.1 ∧
      PlainValue p.2)
    (h : ((ps.map fun p => record p.1 (sharedToken abi p.1) p.2).zipIdx n).foldlM
      (fun st p => parseLine (schema abi) st p.2 p.1) st = .ok st') :
    st'.testCase.shared = insertAll st.testCase.shared ps := by
  induction ps generalizing n st with
  | nil =>
    obtain rfl := foldlM_nil_eq_ok.1 h
    rfl
  | cons p ps ih =>
    obtain ⟨hk, hc, hv⟩ := hps p List.mem_cons_self
    simp only [List.map_cons, List.zipIdx_cons] at h
    obtain ⟨st₁, h₁, h₂⟩ := foldlM_cons_eq_ok.1 h
    rw [parseLine_of_lineRecord (lineRecord_record hk.trimmed hk.comma hk.hash
      (not_mem_sharedToken (by decide)) hv.1)] at h₁
    have hst₁ : st₁.testCase.shared = st.testCase.shared.insert p.1 p.2 := by
      rcases parseRecord_cases.1 h₁ with ⟨hi, -⟩ | ⟨-, -, h₁⟩ | ⟨-, index, field, cycle, hs, -⟩
      · rw [hk.init] at hi
        cases hi
      · obtain ⟨canonical, hcheck, rfl⟩ := parseShared_eq_ok.1 h₁
        rw [(checkField_eq_ok.1 hcheck).1, hc]
      · rw [splitOnce_eq_none_iff.2 hk.dot] at hs
        cases hs
    rw [ih (fun q hq => hps q (List.mem_cons_of_mem _ hq)) h₂, hst₁]
    rfl

/-- **The shared map that is parsed is the one that was written.** -/
theorem V3Input.parse_serialize {case : TestCase}
    (h : parseTestcase (serialize abi input.frames input.shared) (schema abi) = .ok case) :
    case.initProfile = "cold".toList ∧ case.shared = input.shared := by
  refine ⟨parseTestcase_initProfile h, ?_⟩
  obtain ⟨st, hst, -, hshared, -⟩ := parseTestcase_eq_ok.1 h
  rw [input.lines_serialize, List.zipIdx_append] at hst
  obtain ⟨st₁, h₁, h₂⟩ := foldlM_append_eq_ok.1 hst
  have hst₁ : st₁.testCase.shared = input.shared := by
    rw [parse_sharedLines (fun p hp => input.mem_shared hp) h₁]
    exact insertAll_toList input.shared
  have hkeep : st.testCase.shared = st₁.testCase.shared := by
    refine foldlM_invariant (P := fun st : ParseState => st.testCase.shared = st₁.testCase.shared) h₂ ?_
      rfl
    intro p hp st st' hinv hline
    obtain ⟨index, field, token, value, hrec, hf, ht, hv⟩ :=
      input.mem_frameText (List.fst_mem_of_mem_zipIdx hp)
    rw [hrec, parseLine_of_lineRecord (lineRecord_frameLine hf ht hv)] at hline
    rcases parseRecord_cases.1 hline with ⟨hi, -⟩ | ⟨-, hdot, -⟩ | ⟨-, i, f, cycle, -, -, hfr⟩
    · rw [not_init_of_dot dot_frameName] at hi
      cases hi
    · exact absurd dot_frameName hdot
    · exact (parseFrameField_frame hfr).2.trans hinv
  rw [hshared, hkeep, hst₁]

end SemantiST.Engine
