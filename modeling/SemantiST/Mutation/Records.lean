import SemantiST.Lib.Random
import SemantiST.Mutation.Inversion

/-!
# Random mutations of records

The mutators that draw values for records (`fuzzer/engine/src/mutations.rs`): by type, by the fields a task controls and
by the operands of a hazard.
-/

namespace SemantiST.Mutation

open Lib Lib.Drawn Semantic

/-! ## Types -/

def isDateType (ty : Text) : Bool := ["DATE".toList, "LDATE".toList].any (eqIgnoreAsciiCase ty)

def isDateTimeType (ty : Text) : Bool :=
  ["DT".toList, "DATE_AND_TIME".toList, "LDT".toList, "LDATE_AND_TIME".toList].any (eqIgnoreAsciiCase ty)

def isTimeOfDayType (ty : Text) : Bool :=
  ["TOD".toList, "TIME_OF_DAY".toList, "LTOD".toList, "LTIME_OF_DAY".toList].any (eqIgnoreAsciiCase ty)

def isDurationType (ty : Text) : Bool := ["TIME".toList, "LTIME".toList].any (eqIgnoreAsciiCase ty)

def isTemporalType (ty : Text) : Bool :=
  isDateType ty || isDateTimeType ty || isTimeOfDayType ty || isDurationType ty

def signedTypes : List Text := ["SINT".toList, "INT".toList, "DINT".toList, "LINT".toList]

def unsignedTypes : List Text :=
  ["USINT".toList, "UINT".toList, "UDINT".toList, "ULINT".toList, "BYTE".toList, "WORD".toList, "DWORD".toList,
    "LWORD".toList, "CHAR".toList]

def temporalTypes : List Text :=
  ["DATE".toList, "LDATE".toList, "DT".toList, "DATE_AND_TIME".toList, "LDT".toList, "LDATE_AND_TIME".toList,
    "TOD".toList, "TIME_OF_DAY".toList, "LTOD".toList, "LTIME_OF_DAY".toList, "TIME".toList, "LTIME".toList]

def isUnsignedType (ty : Text) : Bool := ty ∈ unsignedTypes

def isIntegerType (ty : Text) : Bool :=
  ty = "BOOL".toList ∨ ty ∈ signedTypes ∨ ty ∈ unsignedTypes ∨ ty = "WCHAR".toList ∨ ty ∈ temporalTypes

/-- What is known of the type of a field.  A width that is there may be no number. -/
structure TypeFact where
  kind : Option Text := none
  bitWidth : Option (Option ℕ) := none
  semanticBitWidth : Option (Option ℕ) := none
  signed : Option Bool := none
  stringCapacity : Option ℤ := none

structure ControllableSeedField where
  seedField : Option Text := none
  typeName : Option Text := none
  typeFact : Option TypeFact := none

def TypeFact.width (fact : TypeFact) : Option ℕ := (fact.semanticBitWidth.or fact.bitWidth).join

def ControllableSeedField.kind (field : ControllableSeedField) : Text := (field.typeFact.bind TypeFact.kind).getD []

def semanticTypeBounds (field : ControllableSeedField) : Option (ℤ × ℤ) :=
  field.typeFact.bind fun fact => fact.width.bind fun width =>
    if width = 0 ∨ 63 < width then none
    else if fact.signed.getD false then some (-2 ^ (width - 1), 2 ^ (width - 1) - 1)
    else if 63 ≤ width then some (0, i64Max)
    else some (0, 2 ^ width - 1)

def semanticFloatTypeName (record : StRecord) (field : Option ControllableSeedField) : Option Text :=
  if record.ty = "LREAL".toList then some "LREAL".toList
  else if record.ty = "REAL".toList then some "REAL".toList
  else field.bind fun field =>
    let named (expected : Text) : Bool := field.typeName.any (eqIgnoreAsciiCase · expected)
    let isFloat := field.typeFact.bind TypeFact.kind = some "float".toList
    let width := field.typeFact.bind TypeFact.width
    if named "LREAL".toList ∨ (isFloat ∧ width = some 64) then some "LREAL".toList
    else if named "REAL".toList ∨ isFloat then some "REAL".toList
    else none

/-! ## Values -/

def realBoundaryValues : List Text :=
  ["0.0".toList, "-0.0".toList, "1.0".toList, "-1.0".toList, "1.17549435e-38".toList, "-1.17549435e-38".toList,
    "3.0e38".toList, "-3.0e38".toList, "3.4028235e38".toList, "-3.4028235e38".toList]

def lrealBoundaryValues : List Text :=
  ["0.0".toList, "-0.0".toList, "1.0".toList, "-1.0".toList, "2.2250738585072014e-308".toList,
    "-2.2250738585072014e-308".toList, "1.0e308".toList, "-1.0e308".toList, "1.7976931348623157e308".toList,
    "-1.7976931348623157e308".toList]

def floatBoundaryValues (typeName : Text) : List Text :=
  if eqIgnoreAsciiCase typeName "LREAL".toList then lrealBoundaryValues else realBoundaryValues

/-- The least, the stressed and the greatest value. -/
def floatStressProfile (typeName : Text) (positive : Bool) : Text × Text × Text :=
  match eqIgnoreAsciiCase typeName "LREAL".toList, positive with
  | true, true => ("-1.0e308".toList, "1.0e308".toList, "1.7976931348623157e308".toList)
  | true, false => ("-1.7976931348623157e308".toList, "-1.0e308".toList, "1.0e308".toList)
  | false, true => ("-3.0e38".toList, "3.0e38".toList, "3.4028235e38".toList)
  | false, false => ("-3.4028235e38".toList, "-3.0e38".toList, "3.0e38".toList)

def secondsPerDay : ℤ := 86400
def nanosPerSecond : ℤ := 1000000000
def nanosPerMillisecond : ℤ := 1000000

def dateBoundaryDays : List ℤ :=
  [0, 1, 30, 31, 32, 58, 59, 60, 61, 90, 91, 92, 119, 120, 121, 151, 152, 153, 180, 181, 182, 243, 244, 245, 272, 273,
    274, 304, 305, 306, 333, 334, 335, 364, 365, 730, 789, 31411, 47481]

def todBoundarySeconds : List ℤ := [0, 1, 59, 60, 3599, 3600, 43199, 43200, 86398, 86399]

def timeBoundaryValues : List ℤ :=
  [0, 1, -1, 1000, -1000, 60000, -60000, 3600000, -3600000, 86400000, -86400000]

/-- Nanoseconds of a day and of seconds in it. -/
def dateNanos (day seconds : ℤ) : ℤ :=
  saturateI64 (saturateI64 (saturateI64 (day * secondsPerDay) + seconds) * nanosPerSecond)

def temporalBoundaryValue (ty : Text) : Drawn ℤ :=
  if isTimeOfDayType ty then (fun seconds => saturateI64 (seconds * nanosPerSecond)) <$> choose 0 todBoundarySeconds
  else if isDurationType ty then
    (fun value => saturateI64 (value * nanosPerMillisecond)) <$> choose 0 timeBoundaryValues
  else do
    let day ← choose 0 dateBoundaryDays
    let seconds ← if isDateTimeType ty then choose 0 todBoundarySeconds else pure 0
    pure (dateNanos day seconds)

/-- A record of a temporal type with a drawn value. -/
def setTemporalRecordValue (record : StRecord) : Drawn (Option StRecord) :=
  if !isTemporalType record.ty then pure none
  else do
    let boundary ← coinflip
    if boundary then
      let value ← temporalBoundaryValue record.ty
      pure (some { record with value := intText value })
    else do
      let day ← between 0 47481
      let seconds ← if isDateType record.ty then pure 0 else between 0 86399
      let value :=
        if isDurationType record.ty ∨ isTimeOfDayType record.ty then saturateI64 (seconds * nanosPerSecond)
        else dateNanos day seconds
      pure (some { record with value := intText value })

def setFloatBoundaryRecord (record : StRecord) (field : Option ControllableSeedField) : Drawn (Option StRecord) :=
  match semanticFloatTypeName record field with
  | none => pure none
  | some typeName => (fun value => some { record with value }) <$> choose [] (floatBoundaryValues typeName)

def setIntegerRecordValue (record : StRecord) (value : ℤ) : StRecord :=
  { record with value := intText (if isUnsignedType record.ty ∧ value < 0 then 0 else value) }

def asciiAlphabet : List Char := "abcdefghijklmnopqrstuvwxyzABCDEFGHIJKLMNOPQRSTUVWXYZ0123456789_-/.:".toList

def hexAlphabet : List Char := "0123456789abcdef".toList

def randomAscii (len : ℕ) : Drawn Text := repeated (choose 'a' asciiAlphabet) len

def randomHex (len : ℕ) : Drawn Text :=
  (fun bytes => '0' :: 'x' :: bytes.flatten) <$> repeated (do
    let byte ← between 0 255
    pure [hexAlphabet.getD (byte / 16 % 16) '0', hexAlphabet.getD (byte % 16) '0']) len

/-- A decimal numeral of at least three digits. -/
def threeDigits (n : ℕ) : Text := List.replicate (3 - (decimal n).length) '0' ++ decimal n

/-- `mutate_record`: a value for the type of the record. -/
def mutateRecord (record : StRecord) : Drawn StRecord :=
  let drawn (value : Drawn Text) : Drawn StRecord := (fun value => { record with value }) <$> value
  if record.ty = "BOOL".toList then drawn ((fun one => if one then "1".toList else "0".toList) <$> coinflip)
  else if record.ty = "REAL".toList ∨ record.ty = "LREAL".toList then drawn do
    let boundary ← coinflip
    if boundary then choose [] (floatBoundaryValues record.ty)
    else do
      let negative ← coinflip
      let whole ← between 0 10000
      let frac ← between 0 999
      pure ((if negative then "-".toList else []) ++ decimal whole ++ '.' :: threeDigits frac)
  else if record.ty = "STRING".toList ∨ record.ty = "WSTRING".toList then drawn do
    let len ← between 0 64
    randomAscii len
  else if record.ty ∈ temporalTypes then (·.getD record) <$> setTemporalRecordValue record
  else if record.ty = "ARRAY".toList ∨ record.ty = "POINTER".toList then drawn do
    let len ← between 1 64
    randomHex len
  else if record.ty ∈ signedTypes then drawn do
    let special ← coinflip
    if special then
      choose [] ["0".toList, "1".toList, "-1".toList, "32767".toList, "-32768".toList, "65535".toList]
    else (fun n => intText ((n : ℤ) - 100000)) <$> between 0 200000
  else if record.ty ∈ unsignedTypes then drawn do
    let special ← coinflip
    if special then
      choose [] ["0".toList, "1".toList, "255".toList, "256".toList, "65535".toList, "4294967295".toList]
    else decimal <$> between 0 200000
  else drawn do
    let len ← between 0 32
    randomAscii len

/-! ## Fields and hazards -/

structure TargetContext where
  targetId : Option Text := none
  targetType : Option Text := none
  cycleHint : Option ℕ := none
  semanticTaskId : Option Text := none
  goalExpression : Option Expression := none
  valueDefinitions : Definitions := ∅
  transitionSeedFields : List (List ControllableSeedField) := []
  controllableSeedFields : List ControllableSeedField := []
  hazardKind : Option Text := none

/-- A name contains one of these words. -/
def looksLike (words : List Text) (name : Text) : Bool :=
  words.any fun word => decide (word <:+: normalizedFieldName name)

def looksLikeLowerBound (name : Text) : Bool := looksLike ["MIN".toList, "LOW".toList, "LOWER".toList] name
def looksLikeUpperBound (name : Text) : Bool := looksLike ["MAX".toList, "HIGH".toList, "UPPER".toList] name
def looksLikeDefaultValue (name : Text) : Bool := looksLike ["DEFAULT".toList] name

/-- The first record of a field. -/
def fieldIndex (records : List StRecord) (field : ControllableSeedField) : Option ℕ :=
  field.seedField.bind fun name =>
    records.findIdx? fun record => normalizedFieldName record.name = toAsciiUppercase name

def floatIndices (records : List StRecord) (fields : List ControllableSeedField) : List (ℕ × Text) :=
  let named := fields.filterMap fun field => (fieldIndex records field).bind fun index =>
    (records[index]?.bind fun record => semanticFloatTypeName record (some field)).map fun typeName => (index, typeName)
  if named.isEmpty then
    records.zipIdx.filterMap fun (record, index) =>
      (semanticFloatTypeName record none).map fun typeName => (index, typeName)
  else named

def mutateFloatBoundaryGroup (records : List StRecord) (fields : List ControllableSeedField) :
    Drawn (Option (List StRecord)) :=
  match floatIndices records fields with
  | [] => pure none
  | (first, typeName) :: rest => do
    let positive ← coinflip
    let (lower, stress, upper) := floatStressProfile typeName positive
    let named (test : Text → Bool) (index : ℕ) : Bool := (records[index]?).any fun record => test record.name
    let indices := first :: rest.map Prod.fst
    let lowerIndex := (indices.filter (named looksLikeLowerBound)).getLast?
    let others := indices.filter fun index => !named looksLikeLowerBound index
    let upperIndex := (others.filter (named looksLikeUpperBound)).getLast?
    let valueIndices := others.filter fun index =>
      !named looksLikeUpperBound index && !named looksLikeDefaultValue index
    if valueIndices.isEmpty then pure none
    else
      let records := lowerIndex.elim records fun index => setValue records index lower
      let records := upperIndex.elim records fun index => setValue records index upper
      pure (some (valueIndices.foldl (fun records index => setValue records index stress) records))

/-- A value for a record, by what is known of its field. -/
def mutateFieldRecord (field : ControllableSeedField) (record : StRecord) : Drawn (Option StRecord) :=
  let drawn (value : Drawn Text) : Drawn (Option StRecord) := (fun value => some { record with value }) <$> value
  if record.ty = "BOOL".toList ∨ field.kind = "boolean".toList then
    pure (some { record with value := if record.value = "0".toList then "1".toList else "0".toList })
  else do
    match ← setTemporalRecordValue record with
    | some record => pure (some record)
    | none =>
      if isIntegerType record.ty ∨ field.kind ∈ ["integer".toList, "enum".toList, "subrange".toList] then
        let (minimum, maximum) := (semanticTypeBounds field).getD (-2 ^ 31, 2 ^ 31 - 1)
        (some ∘ setIntegerRecordValue record) <$>
          choose 0 [minimum, saturateI64 (minimum + 1), 0, 1, saturateI64 (maximum - 1), maximum]
      else if (semanticFloatTypeName record (some field)).isSome then setFloatBoundaryRecord record (some field)
      else if record.ty = "STRING".toList ∨ record.ty = "WSTRING".toList ∨ field.kind = "string".toList then
        let capacity := (max 0 (min ((field.typeFact.bind TypeFact.stringCapacity).getD 16) 4096)).toNat
        drawn ((List.replicate · 'A') <$> choose 0 [0, 1, capacity, capacity + 1])
      else if record.ty = "ARRAY".toList ∨ field.kind = "array".toList then
        drawn (choose [] ["0x00".toList, "0xff".toList, "0x00000000".toList, "0xffffffffffffffff".toList])
      else if record.ty = "POINTER".toList ∨ field.kind = "pointer".toList then
        drawn (choose [] ["0x".toList, "0x00".toList, "0x01".toList, "0xffffffffffffffff".toList])
      else pure none

/-- The record of a drawn field gets a new value. -/
def mutateDrawnField (records : List StRecord) (fields : List ControllableSeedField)
    (mutate : ControllableSeedField → StRecord → Drawn (Option StRecord)) : Drawn (Option (List StRecord)) := do
  let candidates := fields.filterMap fun field => (fieldIndex records field).bind fun index =>
    records[index]?.map fun record => (field, index, record)
  let drawn ← belowOrZero candidates.length
  match candidates[drawn]? with
  | none => pure none
  | some (field, index, record) => (Option.map (records.set index)) <$> mutate field record

def mutateControllableSeedField (records : List StRecord) (fields : List ControllableSeedField) :
    Drawn (Option (List StRecord)) := mutateDrawnField records fields mutateFieldRecord

/-- A boundary value for a record of an arithmetic hazard. -/
def mutateBoundaryRecord (violation : Bool) (field : ControllableSeedField) (record : StRecord) :
    Drawn (Option StRecord) := do
  match ← setFloatBoundaryRecord record (some field) with
  | some record => pure (some record)
  | none =>
    let (minimum, maximum) := (semanticTypeBounds field).getD (-2 ^ 31, 2 ^ 31 - 1)
    (some ∘ setIntegerRecordValue record) <$>
      choose 0 (if violation then [minimum, saturateI64 (minimum + 1), saturateI64 (maximum - 1), maximum]
        else [0, 1, saturateI64 (minimum + 1), saturateI64 (maximum - 1)])

def isDivision (operator : Text) : Bool :=
  operator = "/".toList || operator = "%".toList || eqIgnoreAsciiCase operator "DIV".toList ||
    eqIgnoreAsciiCase operator "MOD".toList

def mutateHazardGoal (records : List StRecord) (context : TargetContext) : Drawn (Option (List StRecord)) :=
  if context.targetType ≠ some "hazard_reach".toList ∧ context.targetType ≠ some "hazard_violation".toList then pure none
  else
    match context.goalExpression, context.hazardKind with
    | some expression, some kind =>
      let violation : Bool := context.targetType = some "hazard_violation".toList
      if kind = "division".toList ∨ kind = "modulo".toList then
        match expression.operands with
        | [_, divisor] =>
          if (expressionOperator expression.kind).any isDivision then
            let (edited, changed) :=
              mutateExpressionToValue context.valueDefinitions records divisor (if violation then 0 else 1)
            pure (if changed then some edited else none)
          else pure none
        | _ => pure none
      else if kind = "arithmetic_boundary".toList ∨ kind = "dangerous_conversion".toList then do
        let group ← if violation ∧ kind = "arithmetic_boundary".toList then
            mutateFloatBoundaryGroup records context.controllableSeedFields
          else pure none
        match group with
        | some records => pure (some records)
        | none => mutateDrawnField records context.controllableSeedFields (mutateBoundaryRecord violation)
      else if kind = "array_access".toList then
        let indexExpression := expression.operands.getLast?.getD expression
        pure ((expressionRecordIndex records indexExpression).map fun index =>
          records.modify index fun record => setIntegerRecordValue record (if violation then -1 else 0))
      else if kind = "pointer_access".toList then
        pure ((records.findIdx? fun record => record.ty = "POINTER".toList).map fun index =>
          setValue records index (if violation then "0x".toList else "0x00".toList))
      else pure none
    | _, _ => pure none

/-! ## What is rewritten -/

/-- A record with the same name and type; a new value is plain. -/
structure Rewrite (old new : StRecord) : Prop where
  name : new.name = old.name
  ty : new.ty = old.ty
  value : new.value = old.value ∨ Plain new.value

/-- Only values have changed, to plain ones. -/
def Rewritten (old new : List StRecord) : Prop := List.Forall₂ Rewrite old new

theorem Rewrite.refl (record : StRecord) : Rewrite record record := ⟨rfl, rfl, Or.inl rfl⟩

theorem Rewrite.trans {r r' r'' : StRecord} (h : Rewrite r r') (h' : Rewrite r' r'') : Rewrite r r'' := by
  refine ⟨h'.name.trans h.name, h'.ty.trans h.ty, ?_⟩
  rcases h'.value with hsame | hplain
  · rw [hsame]
    exact h.value
  · exact Or.inr hplain

theorem rewrite_value (record : StRecord) {value : Text} (h : Plain value) : Rewrite record { record with value } :=
  ⟨rfl, rfl, Or.inr h⟩

theorem Rewritten.refl (records : List StRecord) : Rewritten records records :=
  List.forall₂_same.2 fun r _ => Rewrite.refl r

theorem Rewritten.trans {l l' l'' : List StRecord} (h : Rewritten l l') (h' : Rewritten l' l'') : Rewritten l l'' := by
  induction h generalizing l'' with
  | nil => exact h'
  | cons hhead _ ih =>
    cases h' with
    | cons hhead' htail' => exact .cons (hhead.trans hhead') (ih htail')

theorem Edited.rewritten {old new : List StRecord} (h : Edited old new) : Rewritten old new :=
  h.imp fun _ _ hedit => ⟨hedit.name, hedit.ty, hedit.value.imp id And.left⟩

/-- One record is rewritten. -/
theorem rewritten_modify {records : List StRecord} {index : ℕ} {f : StRecord → StRecord}
    (h : ∀ record, records[index]? = some record → Rewrite record (f record)) :
    Rewritten records (records.modify index f) := by
  induction records generalizing index with
  | nil => simp [Rewritten]
  | cons record records ih =>
    cases index with
    | zero =>
      rw [List.modify_zero_cons]
      exact .cons (h record rfl) (Rewritten.refl records)
    | succ index =>
      rw [List.modify_succ_cons]
      exact .cons (Rewrite.refl record) (ih fun record' hrecord => h record' hrecord)

theorem rewritten_set {records : List StRecord} {index : ℕ} {record record' : StRecord}
    (hrecord : records[index]? = some record) (h : Rewrite record record') :
    Rewritten records (records.set index record') := by
  rw [List.set_eq_modify]
  apply rewritten_modify
  intro old hold
  obtain rfl := Option.some.inj (hrecord.symm.trans hold)
  exact h

theorem rewritten_setValue (records : List StRecord) (index : ℕ) {value : Text} (h : Plain value) :
    Rewritten records (setValue records index value) := rewritten_modify fun record _ => rewrite_value record h

/-- Every record is rewritten. -/
theorem rewritten_map {records : List StRecord} {f : StRecord → StRecord} (h : ∀ record, Rewrite record (f record)) :
    Rewritten records (records.map f) := by
  induction records with
  | nil => exact .nil
  | cons record records ih => exact .cons (h record) ih

/-! ### Plain values -/

theorem plain_decimal (n : ℕ) : Plain (decimal n) := by
  have htext : intText (n : ℤ) = decimal n := by
    rw [intText, if_neg (by omega), Int.natAbs_natCast]
  exact htext ▸ plain_intText n

theorem Plain.append {a b : Text} (ha : Plain a) (hb : Plain b) : Plain (a ++ b) := by
  intro c hc
  rcases List.mem_append.1 hc with h | h
  · exact ha c h
  · exact hb c h

theorem Plain.cons {c : Char} {a : Text} (hc : isWhitespace c = false) (ha : Plain a) : Plain (c :: a) :=
  List.forall_mem_cons.2 ⟨hc, ha⟩

theorem plain_replicate {c : Char} (hc : isWhitespace c = false) (n : ℕ) : Plain (List.replicate n c) := by
  intro d hd
  rw [List.eq_of_mem_replicate hd]
  exact hc

theorem plain_threeDigits (n : ℕ) : Plain (threeDigits n) :=
  (plain_replicate (by decide) _).append (plain_decimal n)

theorem plain_floatBoundaryValues (typeName : Text) : ∀ value ∈ floatBoundaryValues typeName, Plain value := by
  unfold floatBoundaryValues
  split
  · decide
  · decide

theorem always_randomAscii (len : ℕ) : Always Plain (randomAscii len) := by
  have hchar : Always (fun c => isWhitespace c = false) (choose 'a' asciiAlphabet) :=
    always_choose (by decide) (by decide : Plain asciiAlphabet)
  exact hchar.repeated len

theorem hexAlphabet_plain (i : ℕ) : isWhitespace (hexAlphabet.getD i '0') = false := by
  rw [List.getD_eq_getElem?_getD]
  cases hi : hexAlphabet[i]? with
  | none => decide
  | some c =>
    have hall : Plain hexAlphabet := by decide
    exact hall c (List.mem_of_getElem? hi)

theorem always_randomHex (len : ℕ) : Always Plain (randomHex len) := by
  have hbyte : Always Plain (do
      let byte ← between 0 255
      pure [hexAlphabet.getD (byte / 16 % 16) '0', hexAlphabet.getD (byte % 16) '0']) := by
    apply always_bind
    intro byte
    apply always_pure
    exact (Plain.cons (hexAlphabet_plain _) (Plain.cons (hexAlphabet_plain _) (by decide)))
  unfold randomHex
  refine (hbyte.repeated len).map fun bytes hbytes => ?_
  apply Plain.cons (by decide)
  apply Plain.cons (by decide)
  intro c hc
  obtain ⟨text, htext, hc⟩ := List.mem_flatten.1 hc
  exact hbytes text htext c hc

/-! ### The mutators -/

/-- A result that is there rewrites the records. -/
def Rewrites (old : List StRecord) (new : Option (List StRecord)) : Prop := ∀ records ∈ new, Rewritten old records

theorem setTemporalRecordValue_rewrite (record : StRecord) :
    Always (fun new => ∀ r ∈ new, Rewrite record r) (setTemporalRecordValue record) := by
  have hvalue (v : ℤ) : ∀ r ∈ some { record with value := intText v }, Rewrite record r := by
    rintro r ⟨⟩
    exact rewrite_value record (plain_intText v)
  unfold setTemporalRecordValue
  apply always_ite
  · intro _
    exact always_pure fun r hr => nomatch hr
  · intro _
    refine always_bind fun boundary => always_ite ?_ ?_
    · intro _
      exact always_bind fun value => always_pure (hvalue value)
    · intro _
      refine always_bind fun day => ?_
      dsimp only
      split
      · exact always_pure (hvalue _)
      · exact always_bind fun seconds => always_pure (hvalue _)

theorem setFloatBoundaryRecord_rewrite (record : StRecord) (field : Option ControllableSeedField) :
    Always (fun new => ∀ r ∈ new, Rewrite record r) (setFloatBoundaryRecord record field) := by
  unfold setFloatBoundaryRecord
  split
  · exact always_pure fun r hr => nomatch hr
  · rename_i typeName _
    have hplain : Always Plain (choose [] (floatBoundaryValues typeName)) :=
      always_choose (by decide) (plain_floatBoundaryValues typeName)
    refine hplain.map fun value hvalue r hr => ?_
    obtain rfl := Option.some.inj hr
    exact rewrite_value record hvalue

theorem setIntegerRecordValue_rewrite (record : StRecord) (value : ℤ) :
    Rewrite record (setIntegerRecordValue record value) := rewrite_value record (plain_intText _)

/-- **A random mutation of a record writes a plain value.** -/
theorem mutateRecord_rewrite (record : StRecord) : Always (Rewrite record) (mutateRecord record) := by
  have drawn {value : Drawn Text} (h : Always Plain value) :
      Always (Rewrite record) ((fun value => { record with value }) <$> value) :=
    h.map fun value hvalue => rewrite_value record hvalue
  unfold mutateRecord
  dsimp only
  refine always_ite ?_ fun _ => always_ite ?_ fun _ => always_ite ?_ fun _ => always_ite ?_ fun _ => always_ite ?_ fun _ =>
    always_ite ?_ fun _ => always_ite ?_ fun _ => ?_
  · intro _
    apply drawn
    apply always_map
    intro one
    cases one <;> decide
  · intro _
    apply drawn
    refine always_bind fun boundary => always_ite ?_ ?_
    · intro _
      exact always_choose (by decide) (plain_floatBoundaryValues record.ty)
    · intro _
      refine always_bind fun negative => always_bind fun whole => always_bind fun frac => always_pure ?_
      have hsign : Plain (if negative = true then "-".toList else []) := by
        cases negative <;> decide
      exact (hsign.append (plain_decimal whole)).append ((plain_threeDigits frac).cons (by decide))
  · intro _
    apply drawn
    exact always_bind always_randomAscii
  · intro _
    refine (setTemporalRecordValue_rewrite record).map fun new hnew => ?_
    cases new with
    | none => exact Rewrite.refl record
    | some r => exact hnew r rfl
  · intro _
    apply drawn
    exact always_bind always_randomHex
  · intro _
    apply drawn
    refine always_bind fun special => always_ite ?_ ?_
    · intro _
      exact always_choose (by decide) (by decide)
    · intro _
      exact always_map fun n => plain_intText _
  · intro _
    apply drawn
    refine always_bind fun special => always_ite ?_ ?_
    · intro _
      exact always_choose (by decide) (by decide)
    · intro _
      exact always_map plain_decimal
  · apply drawn
    exact always_bind always_randomAscii

theorem mutateFloatBoundaryGroup_rewrites (records : List StRecord) (fields : List ControllableSeedField) :
    Always (Rewrites records) (mutateFloatBoundaryGroup records fields) := by
  unfold mutateFloatBoundaryGroup
  split
  · exact always_pure fun r hr => nomatch hr
  · rename_i first typeName rest _
    apply always_bind
    intro positive
    have hprofile : Plain (floatStressProfile typeName positive).1 ∧ Plain (floatStressProfile typeName positive).2.1 ∧
        Plain (floatStressProfile typeName positive).2.2 := by
      unfold floatStressProfile
      split <;> decide
    rcases hvalues : floatStressProfile typeName positive with ⟨lower, stress, upper⟩
    rw [hvalues] at hprofile
    obtain ⟨hlower, hstress, hupper⟩ := hprofile
    have hset (index : Option ℕ) (records : List StRecord) {value : Text} (h : Plain value) :
        Rewritten records (index.elim records fun index => setValue records index value) := by
      cases index with
      | none => exact Rewritten.refl records
      | some index => exact rewritten_setValue records index h
    have hfold (indices : List ℕ) (records : List StRecord) :
        Rewritten records (indices.foldl (fun records index => setValue records index stress) records) := by
      induction indices generalizing records with
      | nil => exact Rewritten.refl records
      | cons index indices ih =>
        rw [List.foldl_cons]
        exact (rewritten_setValue records index hstress).trans (ih _)
    dsimp only
    apply always_ite
    · intro _
      exact always_pure fun r hr => nomatch hr
    · intro _
      apply always_pure
      rintro records' ⟨⟩
      exact ((hset _ _ hlower).trans (hset _ _ hupper)).trans (hfold _ _)

/-- A mutation of one drawn record. -/
def RewritesRecord (mutate : ControllableSeedField → StRecord → Drawn (Option StRecord)) : Prop :=
  ∀ field record, Always (fun new => ∀ r ∈ new, Rewrite record r) (mutate field record)

theorem mutateFieldRecord_rewrites : RewritesRecord mutateFieldRecord := by
  intro field record
  have drawn {value : Drawn Text} (h : Always Plain value) :
      Always (fun new => ∀ r ∈ new, Rewrite record r) ((fun value => some { record with value }) <$> value) := by
    refine h.map fun value hvalue r hr => ?_
    obtain rfl := Option.some.inj hr
    exact rewrite_value record hvalue
  unfold mutateFieldRecord
  dsimp only
  apply always_ite
  · intro _
    apply always_pure
    rintro r ⟨⟩
    apply rewrite_value
    split <;> decide
  · intro _
    refine (setTemporalRecordValue_rewrite record).bind fun new hnew => ?_
    cases new with
    | some r => exact always_pure hnew
    | none =>
      dsimp only
      refine always_ite ?_ fun _ => always_ite ?_ fun _ => always_ite ?_ fun _ => always_ite ?_ fun _ => always_ite ?_ fun _ => ?_
      · intro _
        apply always_map
        rintro value r ⟨⟩
        exact setIntegerRecordValue_rewrite record value
      · intro _
        exact setFloatBoundaryRecord_rewrite record (some field)
      · intro _
        apply drawn
        exact always_map fun n => plain_replicate (by decide) n
      · intro _
        apply drawn
        exact always_choose (by decide) (by decide)
      · intro _
        apply drawn
        exact always_choose (by decide) (by decide)
      · exact always_pure fun r hr => nomatch hr

theorem mutateBoundaryRecord_rewrites (violation : Bool) : RewritesRecord (mutateBoundaryRecord violation) := by
  intro field record
  refine (setFloatBoundaryRecord_rewrite record (some field)).bind fun new hnew => ?_
  cases new with
  | some r => exact always_pure hnew
  | none =>
    apply always_map
    rintro value r ⟨⟩
    exact setIntegerRecordValue_rewrite record value

theorem mutateDrawnField_rewrites (records : List StRecord) (fields : List ControllableSeedField)
    {mutate : ControllableSeedField → StRecord → Drawn (Option StRecord)} (h : RewritesRecord mutate) :
    Always (Rewrites records) (mutateDrawnField records fields mutate) := by
  apply always_bind
  intro drawn
  split
  · exact always_pure fun r hr => nomatch hr
  · rename_i field index record hcandidate
    have hrecord : records[index]? = some record := by
      obtain ⟨field', -, hfield⟩ := List.mem_filterMap.1 (List.mem_of_getElem? hcandidate)
      obtain ⟨index', -, hindex⟩ := Option.bind_eq_some_iff.1 hfield
      obtain ⟨record', hrecord, heq⟩ := Option.map_eq_some_iff.1 hindex
      cases heq
      exact hrecord
    refine (h field record).map fun new hnew records' hrecords' => ?_
    obtain ⟨record', hrecord', rfl⟩ := Option.map_eq_some_iff.1 hrecords'
    exact rewritten_set hrecord (hnew record' hrecord')

/-- **A mutation for a hazard writes plain values.** -/
theorem mutateHazardGoal_rewrites (records : List StRecord) (context : TargetContext) :
    Always (Rewrites records) (mutateHazardGoal records context) := by
  have hnone : Always (Rewrites records) (pure none) := always_pure fun r hr => nomatch hr
  unfold mutateHazardGoal
  apply always_ite
  · intro _
    exact hnone
  · intro _
    split
    · rename_i expression kind _ _
      dsimp only
      refine always_ite ?_ fun _ => always_ite ?_ fun _ => always_ite ?_ fun _ => always_ite ?_ fun _ => hnone
      · intro _
        split
        · rename_i divisor _
          apply always_ite
          · intro _
            apply always_pure
            intro edited hedited
            obtain ⟨-, hsome⟩ := Option.ite_none_right_eq_some.1 (Option.mem_def.1 hedited)
            obtain rfl := Option.some.inj hsome
            exact (mutateExpressionToValue_sound context.valueDefinitions records divisor _).edited.rewritten
          · intro _
            exact hnone
        · exact hnone
      · intro _
        have hfields := mutateDrawnField_rewrites records context.controllableSeedFields
          (mutateBoundaryRecord_rewrites (decide (context.targetType = some "hazard_violation".toList)))
        apply always_ite
        · intro _
          refine (mutateFloatBoundaryGroup_rewrites records context.controllableSeedFields).bind fun group hgroup => ?_
          cases group with
          | some records' => exact always_pure hgroup
          | none => exact hfields
        · intro _
          exact hfields
      · intro _
        apply always_pure
        intro records' hrecords'
        obtain ⟨index, -, rfl⟩ := Option.map_eq_some_iff.1 hrecords'
        exact rewritten_modify fun record _ => setIntegerRecordValue_rewrite record _
      · intro _
        apply always_pure
        intro records' hrecords'
        obtain ⟨index, -, rfl⟩ := Option.map_eq_some_iff.1 hrecords'
        apply rewritten_setValue
        split <;> decide
    · exact hnone

end SemantiST.Mutation
