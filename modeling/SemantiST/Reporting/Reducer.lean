import SemantiST.Lib.MapM
import SemantiST.Lib.Turns
import SemantiST.Reporting.Findings

/-!
# The seed reducer

`SeedReducer` (`fuzzer/reporting/minimize.py`): cycles are deleted, then single records, as long as the replay
of what is left shows the same failure.  What a replay of a normalized seed shows comes from outside.
-/

namespace SemantiST.Reporting

open Lib

/-! ## Texts of seeds -/

/-- The character database, with `str.isdigit` and what it says of upper case. -/
structure CharacterData extends UnicodeData where
  isDigit : Char → Bool
  isDigit_ascii : ∀ c : Char, c.toNat < 128 → isDigit c = c.isDigit
  upper_ne_nil : ∀ c, upper c ≠ []
  upper_plain : ∀ c d, d ∈ upper c → d = ',' ∨ isSpace d = true ∨ isLineBreak d = true → d = c

/-- A database that knows no characters but those of ASCII. -/
def asciiCharacters : CharacterData where
  toUnicodeData := asciiData
  isDigit := Char.isDigit
  isDigit_ascii _ _ := rfl
  upper_ne_nil _ := List.cons_ne_nil _ _
  upper_plain c d hmem hd := by
    obtain rfl : d = c.toUpper := List.mem_singleton.1 hmem
    have hcase := toNat_toUpper c
    split at hcase
    · rename_i hlower
      have hrange : 0x21 ≤ c.toUpper.toNat ∧ c.toUpper.toNat ≤ 0x7e := by omega
      rcases hd with hd | hd | hd
      · rw [hd] at hcase
        have : (',' : Char).toNat = 44 := rfl
        omega
      · rw [isSpace_graphic hrange] at hd
        cases hd
      · simp only [isLineBreak, Bool.or_eq_true, Bool.and_eq_true, decide_eq_true_eq, beq_iff_eq] at hd
        omega
    · exact Char.toNat_inj.1 hcase

structure SeedRecord where
  name : Text
  ty : Text
  value : Text
  originalIndex : ℕ
deriving DecidableEq

namespace SeedRecord

def line (record : SeedRecord) : Text := record.name ++ ',' :: (record.ty ++ ',' :: record.value)

end SeedRecord

/-- `line.split(",", 2)`, where it gives three parts. -/
def splitRecord (line : Text) : Option (Text × Text × Text) :=
  (splitOnce ',' line).bind fun (name, rest) =>
    (splitOnce ',' rest).map fun (ty, value) => (name, ty, value)

/-- `"\n".join(lines) + "\n"` -/
def joinLines (lines : List Text) : Text := ['\n'].intercalate lines ++ ['\n']

variable (u : CharacterData)

/-- One line of a normalized seed. -/
def normalizeLine (raw : Text) : Option Text :=
  (splitRecord raw).bind fun (name, ty, value) =>
    if trim isSpace name = [] ∨ trim isSpace ty = [] then none
    else some (trim isSpace name ++ ',' :: (u.upperText (trim isSpace ty) ++ ',' :: trim isSpace value))

/-- `normalize_seed`; `none` is a `ValueError`. -/
def normalizeSeed (seed : Text) : Option Text :=
  (((splitlines seed).filter fun raw => trim isSpace raw ≠ []).mapM (normalizeLine u)).bind fun records =>
    if records = [] then none else some (joinLines records)

def parseSeed (seed : Text) : Option (List SeedRecord) :=
  (normalizeSeed u seed).bind fun text =>
    ((splitlines text).zipIdx).mapM fun (raw, index) =>
      (splitRecord raw).map fun (name, ty, value) => ⟨name, ty, value, index⟩

def serializeSeed (records : List SeedRecord) : Text := joinLines (records.map SeedRecord.line)

/-! ## Replays -/

structure FailureSignature where
  status : Text
  returncode : Option ℤ
  signal : Option Text := none
  sanitizer : Option Text := none
  sanitizerKind : Option Text := none
  stackHash : Option Text := none
  stackTop : List Text := []
deriving DecidableEq

structure ReplayOutcome where
  status : Text
  returncode : Option ℤ
  stderrPreview : Text := []
  signature : Option FailureSignature := none
deriving DecidableEq

def signaturesMatch (expected candidate : ReplayOutcome) : Bool :=
  if candidate.status ≠ expected.status then false
  else
    match expected.signature, candidate.signature with
    | some expectedSig, some candidateSig =>
      if given expectedSig.sanitizer || given expectedSig.sanitizerKind then
        if !(candidateSig.sanitizer = expectedSig.sanitizer &&
            candidateSig.sanitizerKind = expectedSig.sanitizerKind) then false
        else if given expectedSig.stackHash then candidateSig.stackHash = expectedSig.stackHash
        else true
      else if given expectedSig.stackHash then candidateSig.stackHash = expectedSig.stackHash
      else if expected.status = "crash".toList ∧ expected.returncode ≠ none then
        candidate.returncode = expected.returncode
      else true
    | _, _ => true

/-- A predicate on the texts of normalized seeds. -/
abbrev Oracle := Text → Bool

/-- Whether records are accepted; `none` where they do not make a seed. -/
def reproduces (oracle : Oracle) (records : List SeedRecord) : Option Bool :=
  (normalizeSeed u (serializeSeed records)).map oracle

/-! ## Deleting cycles -/

/-- The part of a name before its first dot, where that and what follows name a field of a cycle. -/
def cyclePrefix (record : SeedRecord) : Option Text :=
  (splitOnce '.' record.name).bind fun (before, rest) =>
    if before ≠ [] ∧ before.all u.isDigit ∧ rest ≠ [] then some before else none

/-- The cycles, the last one first; `none` where `int` raises an error. -/
def cyclesOf (records : List SeedRecord) : Option (List ℤ) :=
  ((records.filterMap (cyclePrefix u)).mapM (u.int 10)).map fun cycles => (sortDedup cycles).reverse

/-- `name.split(".", 1)[0]` -/
def beforeDot (name : Text) : Text := ((splitOnce '.' name).map Prod.fst).getD name

def inCycle (cycle : ℤ) (record : SeedRecord) : Bool :=
  (intText cycle ++ ['.']).isPrefixOf record.name &&
    (beforeDot record.name ≠ [] && (beforeDot record.name).all u.isDigit)

def withoutCycle (records : List SeedRecord) (cycle : ℤ) : List SeedRecord :=
  records.filter fun record => !inCycle u cycle record

/-- One round of `_delete_cycles`. -/
def deleteCycle (oracle : Oracle) (current : List SeedRecord) : Turn (List SeedRecord) :=
  match cyclesOf u current with
  | none => .raised
  | some cycles =>
    turnTo (reproduces u oracle) ((cycles.map (withoutCycle u current)).filter fun candidate => candidate ≠ [])
      .done

/-! ## Deleting records -/

/-- The indices of records that repeat an earlier one. -/
def exactDuplicateIndices (records : List SeedRecord) : List ℕ :=
  let keys := records.map fun record => (u.upperText record.name, record.ty, record.value)
  (List.range records.length).filter fun index => ∃ key ∈ keys[index]?, key ∈ keys.take index

/-- One round of `_delete_records`. -/
def deleteRecord (oracle : Oracle) (exactDuplicatesOnly : Bool) (current : List SeedRecord) :
    Turn (List SeedRecord) :=
  let indices := (List.range current.length).reverse.filter fun index =>
    !(exactDuplicatesOnly && index ∉ exactDuplicateIndices u current)
  turnTo (reproduces u oracle) ((indices.map current.eraseIdx).filter fun candidate => candidate ≠ []) .done

/-! ## Records that make a seed -/

/-- A record as a seed that was read has it. -/
structure WellFormed (record : SeedRecord) : Prop where
  name_comma : ',' ∉ record.name
  name_shown : ∃ c ∈ record.name, isSpace c = false
  ty_comma : ',' ∉ record.ty
  ty_shown : ∃ c ∈ record.ty, isSpace c = false
  plain : ∀ c ∈ record.line, isLineBreak c = false

section WellFormed

variable {u : CharacterData} {record : SeedRecord} {records : List SeedRecord} {seed raw line : Text}

theorem trim_eq_nil_iff {ws : Char → Bool} {s : Text} : trim ws s = [] ↔ ∀ c ∈ s, ws c = true := by
  rw [trim, List.rdropWhile_eq_nil_iff]
  constructor
  · intro h c hc
    rw [← List.takeWhile_append_dropWhile (p := ws) (l := s), List.mem_append] at hc
    rcases hc with hc | hc
    · exact List.mem_takeWhile_imp hc
    · exact h c hc
  · exact fun h c hc => h c ((List.dropWhile_sublist _).subset hc)

theorem trim_ne_nil_iff {s : Text} : trim isSpace s ≠ [] ↔ ∃ c ∈ s, isSpace c = false := by
  rw [Ne, trim_eq_nil_iff]
  push Not
  simp only [Bool.not_eq_true]

theorem joinLines_eq {lines : List Text} (h : lines ≠ []) : joinLines lines = unlines lines := by
  induction lines with
  | nil => exact absurd rfl h
  | cons line lines ih =>
    cases lines with
    | nil => simp [joinLines, List.intercalate]
    | cons line' lines =>
      have ih := ih (List.cons_ne_nil line' lines)
      rw [unlines_cons, ← ih]
      simp [joinLines, List.intercalate]

theorem splitRecord_line (h : WellFormed record) :
    splitRecord record.line = some (record.name, record.ty, record.value) := by
  rw [splitRecord, SeedRecord.line, splitOnce_append h.name_comma, Option.bind_some]
  dsimp only
  rw [splitOnce_append h.ty_comma]
  rfl

/-- **Records that were read make a seed again.** -/
theorem exists_normalizeSeed (h : ∀ record ∈ records, WellFormed record) (hne : records ≠ []) :
    ∃ text, normalizeSeed u (serializeSeed records) = some text := by
  have hlines : splitlines (serializeSeed records) = records.map SeedRecord.line := by
    rw [serializeSeed, joinLines_eq (by simpa using hne)]
    apply splitlines_unlines
    intro line hline c hc
    obtain ⟨record, hrecord, rfl⟩ := List.mem_map.1 hline
    exact (h record hrecord).plain c hc
  have hshown : (records.map SeedRecord.line).filter (fun raw => trim isSpace raw ≠ []) =
      records.map SeedRecord.line := by
    apply List.filter_eq_self.2
    intro line hline
    obtain ⟨record, hrecord, rfl⟩ := List.mem_map.1 hline
    obtain ⟨c, hc, hspace⟩ := (h record hrecord).name_shown
    exact decide_eq_true (trim_ne_nil_iff.2 ⟨c, List.mem_append_left _ hc, hspace⟩)
  have hread : ∀ line ∈ records.map SeedRecord.line, (normalizeLine u line).isSome = true := by
    intro line hline
    obtain ⟨record, hrecord, rfl⟩ := List.mem_map.1 hline
    have hrecord := h record hrecord
    rw [normalizeLine, splitRecord_line hrecord, Option.bind_some]
    dsimp only
    rw [if_neg]
    · rfl
    · rintro (hname | hty)
      · exact trim_ne_nil_iff.2 hrecord.name_shown hname
      · exact trim_ne_nil_iff.2 hrecord.ty_shown hty
  obtain ⟨lines, hrun⟩ := mapM_isSome hread
  have hlength := mapM_length hrun
  refine ⟨joinLines lines, ?_⟩
  rw [normalizeSeed, hlines, hshown, hrun, Option.bind_some, if_neg]
  rintro rfl
  rw [List.length_nil, List.length_map] at hlength
  exact hne (List.length_eq_zero_iff.1 hlength.symm)

theorem splitRecord_eq_some_iff {name ty value : Text} : splitRecord raw = some (name, ty, value) ↔
    raw = name ++ ',' :: (ty ++ ',' :: value) ∧ ',' ∉ name ∧ ',' ∉ ty := by
  rw [splitRecord]
  constructor
  · intro h
    obtain ⟨⟨name', rest⟩, hname, h⟩ := Option.bind_eq_some_iff.1 h
    obtain ⟨⟨ty', value'⟩, hty, h⟩ := Option.map_eq_some_iff.1 h
    cases h
    obtain ⟨rfl, hcomma⟩ := splitOnce_eq_some_iff.1 hname
    obtain ⟨rfl, hcomma'⟩ := splitOnce_eq_some_iff.1 hty
    exact ⟨rfl, hcomma, hcomma'⟩
  · rintro ⟨rfl, hname, hty⟩
    rw [splitOnce_append hname, Option.bind_some]
    dsimp only
    rw [splitOnce_append hty]
    rfl

/-- A normalized line is that of a well-formed record. -/
theorem wellFormed_of_normalizeLine (hraw : ∀ c ∈ raw, isLineBreak c = false) (h : normalizeLine u raw = some line) :
    ∃ name ty value, line = name ++ ',' :: (ty ++ ',' :: value) ∧
      ∀ index, WellFormed ⟨name, ty, value, index⟩ := by
  unfold normalizeLine at h
  obtain ⟨⟨name, ty, value⟩, hsplit, hline⟩ := Option.bind_eq_some_iff.1 h
  dsimp only at hline
  split at hline
  · cases hline
  · rename_i hshown
    rw [not_or] at hshown
    obtain ⟨rfl, hname, hty⟩ := splitRecord_eq_some_iff.1 hsplit
    refine ⟨_, _, _, (Option.some.inj hline).symm, fun index => ⟨fun hc => hname (mem_of_mem_trim hc), ?_, ?_, ?_, ?_⟩⟩
    · rw [← trim_ne_nil_iff, trim_trim]
      exact hshown.1
    · intro hc
      obtain ⟨c, hmem, hupper⟩ := List.mem_flatMap.1 hc
      obtain rfl := u.upper_plain c ',' hupper (.inl rfl)
      exact hty (mem_of_mem_trim hmem)
    · obtain ⟨c, hmem, hspace⟩ := trim_ne_nil_iff.1 (by rw [trim_trim]; exact hshown.2)
      obtain ⟨d, hd⟩ := List.exists_mem_of_ne_nil _ (u.upper_ne_nil c)
      refine ⟨d, List.mem_flatMap.2 ⟨c, hmem, hd⟩, ?_⟩
      by_contra hdspace
      rw [Bool.not_eq_false] at hdspace
      obtain rfl := u.upper_plain c d hd (.inr (.inl hdspace))
      rw [hspace] at hdspace
      cases hdspace
    · intro c hc
      have hcases : c ∈ trim isSpace name ∨ c = ',' ∨ c ∈ u.upperText (trim isSpace ty) ∨
          c ∈ trim isSpace value := by
        simp only [SeedRecord.line, List.mem_append, List.mem_cons] at hc
        rcases hc with hc | hc | hc | hc | hc
        · exact .inl hc
        · exact .inr (.inl hc)
        · exact .inr (.inr (.inl hc))
        · exact .inr (.inl hc)
        · exact .inr (.inr (.inr hc))
      rcases hcases with hc | rfl | hc | hc
      · exact hraw c (List.mem_append_left _ (mem_of_mem_trim hc))
      · rfl
      · obtain ⟨d, hmem, hupper⟩ := List.mem_flatMap.1 hc
        by_contra hbreak
        rw [Bool.not_eq_false] at hbreak
        obtain rfl := u.upper_plain d c hupper (.inr (.inr hbreak))
        rw [hraw c (by simp [mem_of_mem_trim hmem])] at hbreak
        cases hbreak
      · exact hraw c (by simp [mem_of_mem_trim hc])

/-- **The records of a seed that was read** are well formed and numbered in order. -/
theorem parseSeed_spec (h : parseSeed u seed = some records) :
    records ≠ [] ∧ (∀ record ∈ records, WellFormed record) ∧
      records.map SeedRecord.originalIndex = List.range records.length := by
  obtain ⟨text, hnormal, h⟩ := Option.bind_eq_some_iff.1 h
  obtain ⟨lines, hlines, hnormal⟩ := Option.bind_eq_some_iff.1 hnormal
  split at hnormal
  · cases hnormal
  · rename_i hne
    have hline : ∀ line ∈ lines, ∃ name ty value, line = name ++ ',' :: (ty ++ ',' :: value) ∧
        ∀ index, WellFormed ⟨name, ty, value, index⟩ := by
      intro line hmem
      obtain ⟨raw, hraw, hread⟩ := mem_of_mapM hlines hmem
      exact wellFormed_of_normalizeLine (notBreak_of_mem_splitlines (List.mem_of_mem_filter hraw)) hread
    have hsplit : splitlines text = lines := by
      rw [← Option.some.inj hnormal, joinLines_eq hne]
      apply splitlines_unlines
      intro line hmem
      obtain ⟨name, ty, value, rfl, hwell⟩ := hline line hmem
      exact (hwell 0).plain
    rw [hsplit] at h
    have hlength := mapM_length h
    rw [List.length_zipIdx] at hlength
    refine ⟨?_, fun record hrecord => ?_, ?_⟩
    · rintro rfl
      exact hne (List.length_eq_zero_iff.1 hlength.symm)
    · obtain ⟨⟨raw, index⟩, hraw, hread⟩ := mem_of_mapM h hrecord
      obtain ⟨name, ty, value, rfl, hwell⟩ := hline raw (List.fst_mem_of_mem_zipIdx hraw)
      dsimp only at hread
      rw [splitRecord_eq_some_iff.2 ⟨rfl, (hwell 0).name_comma, (hwell 0).ty_comma⟩] at hread
      rw [← Option.some.inj hread]
      exact hwell index
    · rw [map_eq_of_mapM (k := Prod.snd) h, hlength, List.zipIdx_eq_zip_range', List.map_snd_zip (by simp),
        List.range_eq_range']
      intro entry record hread
      obtain ⟨parts, -, rfl⟩ := Option.map_eq_some_iff.1 hread
      rfl

theorem reproduces_all (h : ∀ record ∈ records, WellFormed record) (hne : records ≠ []) :
    reproduces u (fun _ => true) records = some true := by
  obtain ⟨text, htext⟩ := exists_normalizeSeed (u := u) h hne
  rw [reproduces, htext]
  rfl

end WellFormed

end SemantiST.Reporting
