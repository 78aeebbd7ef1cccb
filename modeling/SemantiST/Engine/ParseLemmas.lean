import SemantiST.Engine.Frames
import SemantiST.Lib.Fold
import SemantiST.Lib.Map

/-!
# What the parser accepts

One lemma for each step of the parser: when it succeeds, and what it does then.
-/

namespace SemantiST.Engine

open Lib

variable {schema : FrameSchema} {st st' : ParseState} {line cycle : ℕ}
  {name token value kind field canonical : Text}

/-! ## Names -/

theorem canonicalName_cases (types : Values) (field : Text) :
    (canonicalName types field = field ∧ ∀ name ∈ types.keys, eqIgnoreAsciiCase name field = false) ∨
    (canonicalName types field ∈ types.keys ∧
      eqIgnoreAsciiCase (canonicalName types field) field = true) := by
  unfold canonicalName
  cases h : types.keys.find? fun name => eqIgnoreAsciiCase name field with
  | none => exact .inl ⟨rfl, by simpa using h⟩
  | some name => exact .inr ⟨List.mem_of_find?_eq_some h, by simpa using List.find?_some h⟩

/-! ## Checks -/

theorem checkKnown_eq_ok {types : Values} {unknown : FrameError} :
    checkKnown types canonical unknown = .ok () ↔
      (types.isEmpty = false → types.contains canonical = true) := by
  unfold checkKnown
  cases types.isEmpty <;> cases types.contains canonical <;> simp

theorem checkType_eq_ok {types : Values} :
    checkType types canonical line field kind = .ok () ↔
      ∀ expected, types[canonical]? = some expected → kind ≠ [] → expected = kind := by
  unfold checkType
  cases types[canonical]? with
  | none => simp
  | some expected => simp

theorem checkNumericDomain_eq_ok {bounds : Option (ℤ × ℤ)} :
    checkNumericDomain canonical value bounds line = .ok () ↔
      ∀ min max, bounds = some (min, max) →
        ∃ number, numericValue value = some number ∧ min ≤ number ∧ number ≤ max := by
  unfold checkNumericDomain
  rcases bounds with _ | ⟨min, max⟩
  · simp
  · cases numericValue value with
    | none => simp
    | some number => simp [not_or, not_lt]

theorem checkStringDomain_eq_ok {maxLength : Option ℕ} {wide : Bool} :
    checkStringDomain canonical value maxLength wide line = .ok () ↔
      ∀ max, maxLength = some max → (if wide then utf16Length value else value.length) ≤ max := by
  unfold checkStringDomain
  cases maxLength with
  | none => simp
  | some max => simp

/-- **When a field passes its checks.** -/
theorem checkField_eq_ok {types : Values} {bounds : Std.ExtTreeMap Text (ℤ × ℤ) compare}
    {lengths : Std.ExtTreeMap Text ℕ compare} {wides : Std.ExtTreeMap Text Bool compare}
    {unknown : FrameError} :
    checkField types bounds lengths wides unknown line field kind value = .ok canonical ↔
      canonical = canonicalName types field ∧
      checkKnown types canonical unknown = .ok () ∧
      checkType types canonical line field kind = .ok () ∧
      checkNumericDomain canonical value bounds[canonical]? line = .ok () ∧
      checkStringDomain canonical value lengths[canonical]? (wides[canonical]?.getD false) line =
        .ok () := by
  simp only [checkField, bind_eq_ok, pure, Except.pure, Except.ok.injEq]
  constructor
  · rintro ⟨⟨⟩, h1, ⟨⟩, h2, ⟨⟩, h3, ⟨⟩, h4, rfl⟩
    exact ⟨rfl, h1, h2, h3, h4⟩
  · rintro ⟨rfl, h1, h2, h3, h4⟩
    exact ⟨(), h1, (), h2, (), h3, (), h4, rfl⟩

/-! ## Records -/

theorem parseInit_eq_ok : parseInit st line kind value = .ok st' ↔
    (kind = [] ∨ kind = "ENUM".toList) ∧ value = "cold".toList ∧
      st' = { st with testCase := { st.testCase with initProfile := "cold".toList } } := by
  simp only [parseInit, ite_error_eq_ok, Except.ok.injEq]
  constructor
  · rintro ⟨hk, hv, rfl⟩
    rw [ne_eq, not_not] at hv
    subst hv
    exact ⟨by tauto, rfl, rfl⟩
  · rintro ⟨hk, rfl, rfl⟩
    exact ⟨by tauto, fun h => h rfl, rfl⟩

theorem parseShared_eq_ok : parseShared schema st line field kind value = .ok st' ↔
    ∃ canonical, checkField schema.sharedTypes schema.sharedBounds schema.sharedStringLengths
        schema.sharedStringWide (.unknownSharedField line field) line field kind value =
          .ok canonical ∧
      st' = { st with
        testCase := { st.testCase with shared := st.testCase.shared.insert canonical value } } := by
  rw [parseShared, bind_eq_ok]
  constructor
  · rintro ⟨canonical, hc, h⟩
    exact ⟨canonical, hc, (Except.ok.inj h).symm⟩
  · rintro ⟨canonical, hc, rfl⟩
    exact ⟨canonical, hc, rfl⟩

theorem parseDt_eq_ok : parseDt st line kind value = .ok st' ↔
    (kind = [] ∨ kind = "TIME".toList) ∧ ∃ dt, parseUnsigned u64Max value = some dt ∧
      st' = { st with
        testCase := modifyLastFrame (fun f => { f with dtNs := some dt }) st.testCase } := by
  simp only [parseDt, ite_error_eq_ok]
  have hkind : ¬(kind ≠ [] ∧ kind ≠ "TIME".toList) ↔ kind = [] ∨ kind = "TIME".toList := by tauto
  rw [hkind]
  refine and_congr_right fun _ => ?_
  cases parseUnsigned u64Max value with
  | none => simp
  | some dt => simp [eq_comm]

/-- **When a frame record is accepted, and what it does**: it belongs to the last frame or to the
next one, and sets the time step or a field. -/
theorem parseFrameField_eq_ok :
    parseFrameField schema st line cycle field kind value = .ok st' ↔
      (st.testCase.frames.getLast?.map Frame.index = some cycle ∨ cycle = st.expectedIndex) ∧
      if eqIgnoreAsciiCase field reservedDt = true then
        parseDt (openFrame schema st cycle) line kind value = .ok st'
      else
        ∃ canonical, checkField schema.frameTypes schema.frameBounds schema.frameStringLengths
            schema.frameStringWide (.unknownFrameField line field) line field kind value =
              .ok canonical ∧
          st' = setField (openFrame schema st cycle) cycle canonical value := by
  simp only [parseFrameField, ite_error_eq_ok]
  refine and_congr (by tauto) ?_
  split
  · rfl
  · rw [bind_eq_ok]
    constructor
    · rintro ⟨canonical, hc, h⟩
      exact ⟨canonical, hc, (Except.ok.inj h).symm⟩
    · rintro ⟨canonical, hc, rfl⟩
      exact ⟨canonical, hc, rfl⟩

/-- **The kinds of record**: the init profile, a shared record, or a record of a frame. -/
theorem parseRecord_cases :
    parseRecord schema st line name kind value = .ok st' ↔
      (eqIgnoreAsciiCase name reservedInit = true ∧ parseInit st line kind value = .ok st') ∨
      (eqIgnoreAsciiCase name reservedInit = false ∧ '.' ∉ name ∧
        parseShared schema st line name kind value = .ok st') ∨
      (eqIgnoreAsciiCase name reservedInit = false ∧ ∃ index field cycle,
        splitOnce '.' name = some (index, field) ∧ parseUnsigned u32Max index = some cycle ∧
        parseFrameField schema st line cycle field kind value = .ok st') := by
  unfold parseRecord
  cases hi : eqIgnoreAsciiCase name reservedInit with
  | true => simp
  | false =>
    simp only [Bool.false_eq_true, if_false, false_and, true_and, false_or]
    cases hs : splitOnce '.' name with
    | none => simp [splitOnce_eq_none_iff.1 hs]
    | some p =>
      rcases p with ⟨index, field⟩
      have hdot : '.' ∈ name := by
        by_contra hn
        rw [splitOnce_eq_none_iff.2 hn] at hs
        cases hs
      simp only [hdot, not_true_eq_false, false_and, false_or, Option.some.injEq, Prod.mk.injEq]
      cases hu : parseUnsigned u32Max index with
      | none =>
        simp only [reduceCtorEq, false_iff, not_exists, not_and]
        rintro index' field' cycle ⟨rfl, rfl⟩ hcycle
        rw [hu] at hcycle
        cases hcycle
      | some cycle =>
        constructor
        · intro h
          exact ⟨index, field, cycle, ⟨rfl, rfl⟩, hu, h⟩
        · rintro ⟨index', field', cycle', ⟨rfl, rfl⟩, hcycle, h⟩
          rw [hu, Option.some.injEq] at hcycle
          rwa [hcycle]

/-- What a line holds: nothing, or the three parts of a record. -/
def lineRecord (raw : Text) : Option (Text × Text × Text) :=
  let text := trim isWhitespace raw
  if text = [] ∨ text.head? = some '#' then none
  else
    (splitOnce ',' text).map fun p =>
      let q := (splitOnce ',' p.2).getD (p.2, [])
      (trim isWhitespace p.1, toAsciiUppercase (trim isWhitespace q.1), trim isWhitespace q.2)

/-- **A line is accepted** when it is blank, a comment or an accepted record. -/
theorem parseLine_eq_ok {raw : Text} :
    parseLine schema st line raw = .ok st' ↔
      ((trim isWhitespace raw = [] ∨ (trim isWhitespace raw).head? = some '#') ∧ st' = st) ∨
      ∃ name kind value, lineRecord raw = some (name, kind, value) ∧
        parseRecord schema st line name kind value = .ok st' := by
  unfold parseLine lineRecord
  by_cases hskip : trim isWhitespace raw = [] ∨ (trim isWhitespace raw).head? = some '#'
  · simp only [hskip, if_true, true_and, Except.ok.injEq, reduceCtorEq, false_and, exists_false,
      or_false]
    exact eq_comm
  · rw [or_iff_right fun h => hskip h.1]
    simp only [if_neg hskip]
    cases splitOnce ',' (trim isWhitespace raw) with
    | none => simp
    | some p => simp

theorem parseLine_of_lineRecord {raw : Text} (h : lineRecord raw = some (name, kind, value)) :
    parseLine schema st line raw = .ok st' ↔ parseRecord schema st line name kind value = .ok st' := by
  rw [parseLine_eq_ok]
  constructor
  · rintro (⟨hskip, -⟩ | ⟨name', kind', value', h', hrec⟩)
    · simp [lineRecord, hskip] at h
    · rw [h, Option.some.injEq, Prod.mk.injEq, Prod.mk.injEq] at h'
      obtain ⟨rfl, rfl, rfl⟩ := h'
      exact hrec
  · exact fun hrec => .inr ⟨name, kind, value, h, hrec⟩

/-! ## The whole text -/

/-- **When a text is accepted**: its lines are, one after the other, and every expanded frame is
complete. -/
theorem parseTestcase_eq_ok {text : Text} {case : TestCase} :
    parseTestcase text schema = .ok case ↔
      ∃ st, ((lines text).zipIdx 1).foldlM (fun st p => parseLine schema st p.2 p.1)
          (initState schema) = .ok st ∧
        case.initProfile = st.testCase.initProfile ∧ case.shared = st.testCase.shared ∧
        case.frames = expandFrames schema (seedValues schema st.testCase.shared) st.explicitFields
          st.testCase.frames ∧
        case.frames.forM (checkComplete schema) = .ok ⟨⟩ := by
  simp only [parseTestcase, bind_eq_ok, pure, Except.pure, Except.ok.injEq]
  constructor
  · rintro ⟨st, hst, ⟨⟩, hcheck, rfl⟩
    exact ⟨st, hst, rfl, rfl, rfl, hcheck⟩
  · rintro ⟨st, hst, hinit, hshared, hframes, hcheck⟩
    refine ⟨st, hst, ⟨⟩, hframes ▸ hcheck, ?_⟩
    rcases case with ⟨initProfile, shared, frames⟩
    simp only at hinit hshared hframes
    rw [hinit, hshared, hframes]

@[simp] theorem openFrame_shared : (openFrame schema st cycle).testCase.shared = st.testCase.shared := by
  unfold openFrame
  split <;> rfl

@[simp] theorem openFrame_initProfile :
    (openFrame schema st cycle).testCase.initProfile = st.testCase.initProfile := by
  unfold openFrame
  split <;> rfl

/-- A frame record leaves the init profile and the shared map alone. -/
theorem parseFrameField_frame (h : parseFrameField schema st line cycle field kind value = .ok st') :
    st'.testCase.initProfile = st.testCase.initProfile ∧
      st'.testCase.shared = st.testCase.shared := by
  obtain ⟨-, h⟩ := parseFrameField_eq_ok.1 h
  split at h
  · obtain ⟨-, dt, -, rfl⟩ := parseDt_eq_ok.1 h
    simp [modifyLastFrame]
  · obtain ⟨canonical, -, rfl⟩ := h
    exact ⟨openFrame_initProfile, openFrame_shared⟩

/-- The init profile is always `cold`. -/
theorem parseRecord_initProfile (h : parseRecord schema st line name kind value = .ok st')
    (hst : st.testCase.initProfile = "cold".toList) :
    st'.testCase.initProfile = "cold".toList := by
  rcases parseRecord_cases.1 h with ⟨-, h⟩ | ⟨-, -, h⟩ | ⟨-, index, field, cycle, -, -, h⟩
  · obtain ⟨-, -, rfl⟩ := parseInit_eq_ok.1 h
    rfl
  · obtain ⟨canonical, -, rfl⟩ := parseShared_eq_ok.1 h
    exact hst
  · exact (parseFrameField_frame h).1.trans hst

theorem parseTestcase_initProfile {text : Text} {case : TestCase}
    (h : parseTestcase text schema = .ok case) : case.initProfile = "cold".toList := by
  obtain ⟨st, hst, hinit, -⟩ := parseTestcase_eq_ok.1 h
  rw [hinit]
  refine foldlM_invariant (P := fun st : ParseState => st.testCase.initProfile = "cold".toList) hst ?_ rfl
  intro p _ st st' hcold hp
  rcases parseLine_eq_ok.1 hp with ⟨-, rfl⟩ | ⟨name, kind, value, -, hrec⟩
  · exact hcold
  · exact parseRecord_initProfile hrec hcold

end SemantiST.Engine
