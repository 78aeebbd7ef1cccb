import SemantiST.Corpus.Hashes
import SemantiST.Engine.Serialize

/-!
# The two parsers agree

On a text of printable ASCII that both parsers accept they read the same assignments, so they make
the same testcase of it.
-/

namespace SemantiST.Corpus

open Lib

/-- The schema names the fields of the ABI, with their defaults and their types. -/
structure Describes (fs : Engine.FrameSchema) (abi : TargetAbi) : Prop where
  frameDefaults : fs.frameDefaults = (Engine.schema abi).frameDefaults
  frameTypes : fs.frameTypes = (Engine.schema abi).frameTypes
  sharedTypes : fs.sharedTypes = (Engine.schema abi).sharedTypes

theorem describes_schema (abi : TargetAbi) : Describes (Engine.schema abi) abi := ⟨rfl, rfl, rfl⟩

variable {u : UnicodeData} {fs : Engine.FrameSchema} {abi : TargetAbi} {a b : Assignment}
  {raw name kind value digits field : Text}

/-! ## Numbers -/

theorem digits_plain (h : ∀ c ∈ digits, c.isDigit = true) :
    (∀ c ∈ digits, c.toNat < 128) ∧ Trimmed isSpace digits ∧ '_' ∉ digits := by
  have hrange : ∀ c ∈ digits, 48 ≤ c.toNat ∧ c.toNat ≤ 57 := fun c hc => isDigit_range (h c hc)
  refine ⟨fun c hc => ?_, trimmed_of_forall fun c hc => isSpace_graphic ?_,
    fun hmem => absurd (h _ hmem) (by decide)⟩
  · have := hrange c hc
    omega
  · have := hrange c hc
    omega

/-- The two readings of a frame number agree. -/
theorem cycle_agrees {cycle : ℤ} {cycle' : ℕ} (h : ∀ c ∈ digits, c.isDigit = true)
    (hint : u.int 10 digits = some cycle) (hu : parseUnsigned u32Max digits = some cycle') :
    cycle.toNat = cycle' := by
  obtain ⟨-, ⟨rest, rfl, -⟩ | hread⟩ := parseUnsigned_eq_some hu
  · exact absurd (h '+' List.mem_cons_self) (by decide)
  · obtain ⟨hascii, htrim, hunderscore⟩ := digits_plain h
    rw [int_ascii hascii htrim, readSign_of_isDigit (isDigit_of_readNumber hread).1 h] at hint
    obtain ⟨n, hn, rfl⟩ := Option.map_eq_some_iff.1 hint
    have hn := groupedDecimal_eq_some hunderscore hn
    rw [hread, Option.some.injEq] at hn
    exact hn.symm

/-- The two readings of a time step agree. -/
theorem dt_agrees {dt : ℤ} {ns : ℕ} (hdt : parseDt u value = .ok dt)
    (hns : parseUnsigned u64Max value = some ns) : dt = ns := by
  obtain ⟨digits, hvalue, hread⟩ : ∃ digits, (value = digits ∨ value = '+' :: digits) ∧
      readNumber decDigit 10 digits = some ns := by
    obtain ⟨-, ⟨digits, rfl, hread⟩ | hread⟩ := parseUnsigned_eq_some hns
    · exact ⟨digits, .inr rfl, hread⟩
    · exact ⟨value, .inl rfl, hread⟩
  obtain ⟨hne, h⟩ := isDigit_of_readNumber hread
  have hchars : ∀ c ∈ value, c = '+' ∨ c.isDigit = true := by
    rcases hvalue with rfl | rfl
    · exact fun c hc => .inr (h c hc)
    · intro c hc
      exact (List.mem_cons.1 hc).imp_right (h c)
  have hrange : ∀ c ∈ value, 0x21 ≤ c.toNat ∧ c.toNat ≤ 0x39 := by
    intro c hc
    rcases hchars c hc with rfl | hd
    · decide
    · have := isDigit_range hd
      omega
  have htrim : Trimmed isSpace value := trimmed_of_forall fun c hc => isSpace_graphic (by
    have := hrange c hc
    omega)
  -- no TIME literal starts with a sign or a digit
  have htime : stripTimePrefix value = none := by
    unfold stripTimePrefix
    split
    · exact absurd (hrange 't' List.mem_cons_self) (by decide)
    · exact absurd (hrange 'T' List.mem_cons_self) (by decide)
    · rfl
  unfold parseDt at hdt
  simp only [trim_of_trimmed htrim, htime, Option.isSome_none, Bool.false_eq_true, if_false] at hdt
  rw [int_ascii (fun c hc => by have := hrange c hc; omega) htrim] at hdt
  have hsign : readSign (intMagnitude 0) value = (intMagnitude 0 digits).map Int.ofNat := by
    rcases hvalue with rfl | rfl
    · exact readSign_of_isDigit hne h
    · rfl
  rw [hsign] at hdt
  cases hm : intMagnitude 0 digits with
  | none => simp [hm] at hdt
  | some m =>
    have hm' := intMagnitude_zero_of_isDigit h hm
    rw [hread, Option.some.injEq] at hm'
    rw [hm] at hdt
    obtain rfl := Except.ok.inj hdt
    exact congrArg Int.ofNat hm'.symm

/-! ## Lines -/

theorem not_mem_ident {p : Param} {c : Char} (hp : p ∈ abi.stateFields ++ abi.params)
    (hc : c.toNat < 48 ∨ 122 < c.toNat) : c ∉ p.name :=
  not_mem_isIdent (isFieldName_isIdent (abi.fieldName p hp)) hc

theorem upper_reservedInit : toAsciiUppercase reservedInit = reservedInit := by decide

theorem upper_reservedDt : toAsciiUppercase reservedDt = reservedDt := by decide

/-- **The two readings of a line agree.** -/
theorem readLine_agrees (hd : Describes fs abi) (hraw : Printable raw)
    (hpy : readLine u abi raw = .ok (some a))
    (hrecord : Engine.lineRecord raw = some (name, kind, value))
    (hread : Engine.Reads fs name kind value b) : a = b := by
  obtain ⟨name', ty, value', hne, hsplit, hcase⟩ := readLine_eq_some hpy
  obtain ⟨n, rest, t, v, hline, hrest, rfl, -, -, rfl⟩ := splitRecord_eq_ok hsplit
  rw [trim_printable hraw] at hline
  -- both sides cut the line at the same commas
  have hparts : name = trim isWhitespace n ∧ value = trim isWhitespace v := by
    unfold Engine.lineRecord at hrecord
    simp only at hrecord
    split at hrecord
    · cases hrecord
    · rw [hline, Option.map_some, hrest, Option.some.injEq, Prod.mk.injEq, Prod.mk.injEq] at hrecord
      exact ⟨hrecord.1.symm, hrecord.2.2.symm⟩
  obtain ⟨hline', -⟩ := splitOnce_eq_some_iff.1 hline
  obtain ⟨hrest', -⟩ := splitOnce_eq_some_iff.1 hrest
  have hprintable : Printable (n ++ ',' :: (t ++ ',' :: v)) := by
    rw [← hrest', ← hline']
    exact fun c hc => hraw c (mem_of_mem_trim hc)
  have hn : Printable n := fun c hc => hprintable c (List.mem_append_left _ hc)
  have hv : Printable v := fun c hc => hprintable c (by simp [hc])
  obtain ⟨rfl, rfl⟩ := hparts
  rw [trim_printable hn, trim_printable hv] at hcase
  have hname : ∀ c ∈ trim isWhitespace n, c.toNat < 128 := fun c hc => by
    have := hn c (mem_of_mem_trim hc)
    omega
  have hupper : ∀ p ∈ abi.stateFields ++ abi.params, u.upperText p.name = toAsciiUppercase p.name :=
    fun p hp => upperText_ascii fun c hc => by
      have := (isIdent_chars (isFieldName_isIdent (abi.fieldName p hp))).2 c hc
      omega
  generalize trim isWhitespace n = name at *
  generalize trim isWhitespace v = value at *
  rcases hcase with ⟨-, hshared⟩ | ⟨digits, field, cycle, hpre, hcycle, hframe⟩
  · rw [readShared_eq_ok, upperText_ascii hname] at hshared
    rcases hshared with ⟨hinit, -, -, rfl⟩ | ⟨hinit, p, hp, -, rfl⟩
    · have hinit' : eqIgnoreAsciiCase name reservedInit = true := by
        rw [eqIgnoreAsciiCase_iff_upper, hinit, upper_reservedInit]
      cases hread with
      | init => rfl
      | shared hname' => rw [hinit'] at hname'; cases hname'
      | dt hname' => rw [hinit'] at hname'; cases hname'
      | field hname' => rw [hinit'] at hname'; cases hname'
    · obtain ⟨hmem, hkey⟩ := mem_of_byUpperName hp
      have hmem' := TargetAbi.mem_of_mem_sharedParams hmem
      rw [hupper p hmem', ← eqIgnoreAsciiCase_iff_upper] at hkey
      have hdot : '.' ∉ name := fun hdot => not_mem_ident hmem' (by decide)
        (mem_of_eqIgnoreAsciiCase (eqIgnoreAsciiCase_symm hkey) (by decide) hdot)
      have hnosplit {index field : Text} (hs : splitOnce '.' name = some (index, field)) : False := by
        rw [splitOnce_eq_none_iff.2 hdot] at hs
        cases hs
      cases hread with
      | init hname' =>
        rw [eqIgnoreAsciiCase_iff_upper, upper_reservedInit] at hname'
        exact absurd hname' hinit
      | shared _ _ hfield =>
        rw [hfield.1, hd.sharedTypes, Engine.canonicalName_sharedTypes hmem hkey]
      | dt _ hs => exact (hnosplit hs).elim
      | field _ hs => exact (hnosplit hs).elim
  · obtain ⟨rfl, hne', hdecimal⟩ := cyclePrefix_eq_some hpre
    have hdigits : ∀ c ∈ digits, c.isDigit = true := fun c hc => by
      have := hdecimal c hc
      rwa [u.decimal_ascii c (hname c (List.mem_append_left _ hc)), decDigit_isSome] at this
    have hsplit' : splitOnce '.' (digits ++ '.' :: field) = some (digits, field) :=
      splitOnce_append fun hmem => absurd (hdigits _ hmem) (by decide)
    have hfield' : ∀ c ∈ field, c.toNat < 128 := fun c hc => hname c (by simp [hc])
    rw [readFrame_eq_ok, upperText_ascii hfield'] at hframe
    cases hread with
    | init hname' =>
      rw [Engine.not_init_of_dot (by simp)] at hname'
      cases hname'
    | shared _ hdot => exact absurd (by simp) hdot
    | dt _ hs hindex hdt _ hvalue =>
      rw [hsplit', Option.some.injEq, Prod.mk.injEq] at hs
      obtain ⟨rfl, rfl⟩ := hs
      rw [eqIgnoreAsciiCase_iff_upper, upper_reservedDt] at hdt
      rcases hframe with ⟨-, -, dt, hparse, rfl⟩ | ⟨hdt', -⟩
      · rw [cycle_agrees hdigits hcycle hindex, dt_agrees hparse hvalue]
      · exact absurd hdt hdt'
    | field _ hs hindex hdt hfield =>
      rw [hsplit', Option.some.injEq, Prod.mk.injEq] at hs
      obtain ⟨rfl, rfl⟩ := hs
      rcases hframe with ⟨hdt', -⟩ | ⟨-, p, hp, -, rfl⟩
      · have hsame : eqIgnoreAsciiCase field reservedDt = true := by
          rw [eqIgnoreAsciiCase_iff_upper, hdt', upper_reservedDt]
        rw [hsame] at hdt
        cases hdt
      · obtain ⟨hmem, hkey⟩ := mem_of_byUpperName hp
        rw [hupper p (TargetAbi.mem_of_mem_frameActionParams hmem), ← eqIgnoreAsciiCase_iff_upper]
          at hkey
        rw [cycle_agrees hdigits hcycle hindex, hfield.1, hd.frameTypes,
          Engine.canonicalName_frameTypes hmem hkey]

/-- Python reads no record off a comment. -/
theorem head_of_readLine (hraw : Printable raw) (hpy : readLine u abi raw = .ok (some a)) :
    (trim isWhitespace raw).head? ≠ some '#' := by
  intro hhash
  obtain ⟨name, ty, value, hne, hsplit, hcase⟩ := readLine_eq_some hpy
  obtain ⟨n, rest, t, v, hline, hrest, rfl, -, -, -⟩ := splitRecord_eq_ok hsplit
  rw [trim_printable hraw] at hline
  obtain ⟨hline', -⟩ := splitOnce_eq_some_iff.1 hline
  have hn : Printable n := fun c hc => hraw c (mem_of_mem_trim (by rw [hline']; simp [hc]))
  have hhead : (trim isSpace n).head? = some '#' := by
    rw [hline'] at hhash
    cases n with
    | nil => cases hhash
    | cons c n =>
      obtain rfl : c = '#' := Option.some.inj hhash
      exact head?_trim (by decide)
  have hascii : ∀ c ∈ trim isSpace n, c.toNat < 128 := fun c hc => by
    have := hn c (mem_of_mem_trim hc)
    omega
  rcases hcase with ⟨-, hshared⟩ | ⟨digits, field, cycle, hpre, -, -⟩
  · have hmem : '#' ∈ trim isSpace n := List.mem_of_mem_head? hhead
    rw [readShared_eq_ok, upperText_ascii hascii] at hshared
    rcases hshared with ⟨hinit, -⟩ | ⟨-, p, hp, -⟩
    · rw [← upper_reservedInit, ← eqIgnoreAsciiCase_iff_upper] at hinit
      exact absurd (mem_of_eqIgnoreAsciiCase hinit (by decide) hmem) (by decide)
    · obtain ⟨hps, hkey⟩ := mem_of_byUpperName hp
      have hp' := TargetAbi.mem_of_mem_sharedParams hps
      rw [upperText_ascii fun c hc => by
        have := (isIdent_chars (isFieldName_isIdent (abi.fieldName p hp'))).2 c hc
        omega, ← eqIgnoreAsciiCase_iff_upper] at hkey
      exact not_mem_ident hp' (by decide)
        (mem_of_eqIgnoreAsciiCase (eqIgnoreAsciiCase_symm hkey) (by decide) hmem)
  · obtain ⟨hname, hne', hdecimal⟩ := cyclePrefix_eq_some hpre
    cases digits with
    | nil => exact hne' rfl
    | cons d digits =>
      rw [hname] at hhead hascii
      obtain rfl : d = '#' := Option.some.inj hhead
      have := hdecimal '#' List.mem_cons_self
      rw [u.decimal_ascii '#' (by decide)] at this
      revert this
      decide

/-! ## Texts -/

/-- **The two parsers read the same assignments.** -/
theorem assignments_agree {raws : List Text} {rs : List Assignment} (hd : Describes fs abi)
    (hraws : ∀ raw ∈ raws, Printable raw) (hall : AllRead u abi raws)
    (hread : Engine.ReadsLines fs raws rs) : assignments u abi raws = rs := by
  induction hread with
  | nil => rfl
  | @skip raw raws rs hskip _ ih =>
    have hraw := hraws raw List.mem_cons_self
    have ih := ih (fun r hr => hraws r (List.mem_cons_of_mem _ hr))
      fun r hr => hall r (List.mem_cons_of_mem _ hr)
    obtain ⟨o, ho⟩ := hall raw List.mem_cons_self
    cases o with
    | none =>
      rw [assignments_cons ho, ih]
      rfl
    | some a =>
      exfalso
      rcases hskip with hblank | hhash
      · obtain ⟨_, _, _, hne, -⟩ := readLine_eq_some ho
        exact hne ((trim_printable hraw).trans hblank)
      · exact head_of_readLine hraw ho hhash
  | @cons raw raws b rs name kind value hrecord hreads _ ih =>
    have hraw := hraws raw List.mem_cons_self
    have ih := ih (fun r hr => hraws r (List.mem_cons_of_mem _ hr))
      fun r hr => hall r (List.mem_cons_of_mem _ hr)
    obtain ⟨o, ho⟩ := hall raw List.mem_cons_self
    cases o with
    | none =>
      have hblank := readLine_eq_none ho
      rw [trim_printable hraw] at hblank
      simp [Engine.lineRecord, hblank] at hrecord
    | some a =>
      obtain rfl := readLine_agrees hd hraw ho hrecord hreads
      rw [assignments_cons ho, ih]
      rfl

/-- A record with a frame number occurs in the text. -/
def HasFrameRecord (u : UnicodeData) (text : Text) : Prop :=
  ∃ raw ∈ splitlines text, ∃ name ty value digits field,
    splitRecord u (trim isSpace raw) = .ok (name, ty, value) ∧
      cyclePrefix u name = some (digits, field)

theorem exists_cycle_of_hasFrameRecord {text : Text} (h : HasFrameRecord u text)
    (hall : AllRead u abi (splitlines text)) :
    ∃ a ∈ assignments u abi (splitlines text), ∃ i, a.cycle = some i := by
  obtain ⟨raw, hraw, name, ty, value, digits, field, hsplit, hpre⟩ := h
  obtain ⟨o, ho⟩ := hall raw hraw
  cases o with
  | none =>
    rw [readLine_eq_none ho] at hsplit
    cases hsplit
  | some a =>
    refine ⟨a, List.mem_filterMap.2 ⟨raw, hraw, by rw [ho]; rfl⟩, ?_⟩
    obtain ⟨name', ty', value', -, hsplit', hcase⟩ := readLine_eq_some ho
    rw [hsplit, Except.ok.injEq, Prod.mk.injEq, Prod.mk.injEq] at hsplit'
    obtain ⟨rfl, rfl, rfl⟩ := hsplit'
    rcases hcase with ⟨hnone, -⟩ | ⟨digits', field', cycle, -, -, hframe⟩
    · rw [hpre] at hnone
      cases hnone
    · rcases readFrame_eq_ok.1 hframe with ⟨-, -, dt, -, rfl⟩ | ⟨-, p, -, -, rfl⟩
      · exact ⟨_, rfl⟩
      · exact ⟨_, rfl⟩

/-- **The two parsers agree** on a text of printable ASCII and line feeds with a frame record that
both accept: on the shared map, on the values and the time step of every frame, and on the hashes. -/
theorem parseTestcase_agrees {text : Text} {scanPeriodNs : ℤ} {T : TestCase} {case : Engine.TestCase}
    (hd : Describes fs abi) (htext : ∀ c ∈ text, c = '\n' ∨ (0x20 ≤ c.toNat ∧ c.toNat ≤ 0x7e))
    (hframe : HasFrameRecord u text) (hpy : parseTestcase u text abi scanPeriodNs none = .ok T)
    (hrust : Engine.parseTestcase text fs = .ok case) :
    Agrees T case ∧ T.frameHashes = case.frameHashes.map UInt64.toNat ∧
      T.prefixHashes = case.prefixHashes.map UInt64.toNat := by
  have hlines : splitlines text = lines text := splitlines_eq_lines fun c hc => by
    refine (htext c hc).imp_right fun h => ?_
    simp only [isLineBreak, Bool.or_eq_false_iff, Bool.and_eq_false_iff, decide_eq_false_iff_not,
      beq_eq_false_iff_ne]
    omega
  have hraws : ∀ raw ∈ lines text, Printable raw := fun raw hraw c hc =>
    (htext c (mem_of_mem_lines hraw hc)).resolve_left fun hnl =>
      newline_of_mem_lines hraw (hnl ▸ hc)
  obtain ⟨hall, -, n, hparsed⟩ := parseTestcase_eq_ok hpy
  obtain ⟨rs, m, hread, -, hcount, hinit, hshared, hframes⟩ := Engine.parseTestcase_iff.1 hrust
  obtain ⟨a, ha, i, hi⟩ := exists_cycle_of_hasFrameRecord hframe hall
  rw [hlines] at hall hparsed ha
  have hrs := assignments_agree hd hraws hall hread
  rw [hrs] at hparsed ha
  obtain rfl : n = m := hparsed.count.unique hcount
  have hn : n ≠ 0 := fun h0 => by
    have := (hcount i).1 ⟨a, ha, hi⟩
    omega
  have hagrees : Agrees T case := by
    refine ⟨hparsed.initProfile.trans hinit.symm, hparsed.shared.trans hshared.symm, ?_⟩
    rw [hparsed.frames, if_neg hn, hframes, hd.frameDefaults]
    exact List.map_congr_left fun i _ => frameWith_none _ _ _ i
  exact ⟨hagrees, hagrees.hashes⟩

/-- A function block with one `INT` input. -/
def oneInput : TargetAbi where
  kind := .functionBlock
  params := [⟨"X".toList, .scalar .int, .varInput, false⟩]
  stateFields := [⟨"X".toList, .scalar .int, .varInput, false⟩]
  fieldName := by decide
  oneName := by decide
  nodup_params := by decide
  nodup_stateFields := by decide
  members := by decide

def oneFrame : Text := "0.X,INT,1\n".toList

theorem hasFrameRecord_oneFrame : HasFrameRecord asciiData oneFrame :=
  ⟨"0.X,INT,1".toList, by decide +kernel, "0.X".toList, "INT".toList, "1".toList, "0".toList, "X".toList,
    by decide +kernel, by decide +kernel⟩

theorem oneFrame_printable : ∀ c ∈ oneFrame, c = '\n' ∨ (0x20 ≤ c.toNat ∧ c.toNat ≤ 0x7e) := by
  have h : (oneFrame.all fun c => c == '\n' || (0x20 ≤ c.toNat && c.toNat ≤ 0x7e)) = true := by
    decide +kernel
  intro c hc
  simpa using List.all_eq_true.1 h c hc

theorem parseTestcase_agrees_oneFrame : ∃ T case,
    parseTestcase asciiData oneFrame oneInput 0 none = .ok T ∧
      Engine.parseTestcase oneFrame (Engine.schema oneInput) = .ok case ∧ Agrees T case ∧
      T.frameHashes = case.frameHashes.map UInt64.toNat ∧
      T.prefixHashes = case.prefixHashes.map UInt64.toNat := by
  have hpy : (parseTestcase asciiData oneFrame oneInput 0 none).toBool = true := by decide +kernel
  have hrust : (Engine.parseTestcase oneFrame (Engine.schema oneInput)).toBool = true := by
    decide +kernel
  cases hT : parseTestcase asciiData oneFrame oneInput 0 none with
  | error e =>
    rw [hT] at hpy
    cases hpy
  | ok T =>
    cases hcase : Engine.parseTestcase oneFrame (Engine.schema oneInput) with
    | error e =>
      rw [hcase] at hrust
      cases hrust
    | ok case =>
      exact ⟨T, case, rfl, rfl, parseTestcase_agrees (describes_schema oneInput)
        oneFrame_printable hasFrameRecord_oneFrame hT hcase⟩

end SemantiST.Corpus
