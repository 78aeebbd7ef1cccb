import SemantiST.Intake.Declarations

/-!
# Accepted texts

What the evidence of a build says about its units, and what a round of `validate` keeps of it: units that
are `ok` are not touched, and the others are blanked, or lose declarations that were diagnosed.
-/

namespace SemantiST.Intake.Build

open Lib

variable {library : Library}

/-! ## Faithful evidence -/

/-- A text with the line breaks and the offsets of another one. -/
structure SameLayout (text accepted : Text) : Prop where
  length : accepted.length = text.length
  breaks : ∀ (i : ℕ) (c : Char), isLineBreak c = true → (accepted[i]? = some c ↔ text[i]? = some c)

/-- A run of rounds diagnoses a declaration of a global variable list. -/
def Diagnosed (library : Library) (run : List (State × BuildAnswer)) (ref : UnitRef)
    (declaration : List LosslessToken) : Prop :=
  ∃ round ∈ run, ∃ diagnostic ∈ round.2.check.errors, ∃ found place,
    located library diagnostic = some (ref.1, found) ∧ found.unit = some ref.2 ∧
      declarationAt (library.index ref.1) ref.2 found.offset = some (declaration, place)

/-- A declaration of a global variable list that was diagnosed. -/
structure LostDeclaration (library : Library) (run : List (State × BuildAnswer)) (ref : UnitRef)
    (declaration : List LosslessToken) : Prop where
  mem : declaration ∈ listDeclarations (library.tokensOf ref)
  diagnosed : Diagnosed library run ref declaration

/-- **What the evidence says is true**: a unit that is `ok` has its text, another one is blank or, as a
global variable list, has lost only whole declarations that were diagnosed. -/
structure Faithful (library : Library) (run : List (State × BuildAnswer)) (evidence : Evidence) : Prop where
  layout : ∀ file, SameLayout (library.text file) (evidence.acceptedTexts file)
  ok : ∀ ref ∈ library.unitRefs, evidence.status (keyOf ref) = .ok →
    slice ref.2.start ref.2.stop (evidence.acceptedTexts ref.1) = slice ref.2.start ref.2.stop (library.text ref.1)
  rejected : ∀ ref ∈ library.unitRefs, evidence.status (keyOf ref) ≠ .ok →
    (∀ c ∈ slice ref.2.start ref.2.stop (evidence.acceptedTexts ref.1), c = ' ' ∨ isLineBreak c = true) ∨
      ref.2.kind = "VAR_GLOBAL".toList ∧ ∃ lost : List (List LosslessToken),
        (∀ declaration ∈ lost, LostDeclaration library run ref declaration) ∧
          slice ref.2.start ref.2.stop (evidence.acceptedTexts ref.1) =
            slice ref.2.start ref.2.stop (blank (library.text ref.1) (lost.map extent))

/-! ## The condition -/

/-- A span shares a character with a unit. -/
def Meets (span : ℕ × ℕ) (unit : Unit) : Prop := span.1 < unit.stop ∧ unit.start < span.2

instance (span : ℕ × ℕ) (unit : Unit) : Decidable (Meets span unit) := inferInstanceAs (Decidable (_ ∧ _))

/-- A diagnosed line outside the units shares its text with units only that are blanked already. -/
def LineApart (library : Library) (s : State) (file : Text) (line : ℕ) : Prop :=
  ∀ span ∈ lineSpan (library.text file) line, ∀ unit ∈ (library.index file).units,
    Meets span unit → spanOf unit ∈ s.spans file

/-- The errors of a check are apart from the units, or in declarations where they are in a global variable
list and a span is found for them. -/
def Clean (library : Library) (s : State) (answer : BuildAnswer) : Prop :=
  ∀ diagnostic ∈ answer.check.errors, ∀ place ∈ located library diagnostic,
    (place.2.unit = none → LineApart library s place.1 diagnostic.line) ∧
      ∀ unit ∈ place.2.unit, declarationSpan (library.index place.1) unit place.2.offset ≠ none →
        InDeclaration (library.index place.1) unit place.2.offset

instance (library : Library) (s : State) (file : Text) (line : ℕ) : Decidable (LineApart library s file line) :=
  inferInstanceAs (Decidable (∀ span ∈ lineSpan (library.text file) line, ∀ unit ∈ (library.index file).units,
    Meets span unit → spanOf unit ∈ s.spans file))

instance (library : Library) (s : State) (answer : BuildAnswer) : Decidable (Clean library s answer) :=
  inferInstanceAs (Decidable (∀ diagnostic ∈ answer.check.errors, ∀ place ∈ located library diagnostic,
    (place.2.unit = none → LineApart library s place.1 diagnostic.line) ∧
      ∀ unit ∈ place.2.unit, declarationSpan (library.index place.1) unit place.2.offset ≠ none →
        InDeclaration (library.index place.1) unit place.2.offset))

/-! ## Blanked characters -/

section Blank

variable {text : Text} {spans : List (ℕ × ℕ)}

def covers (spans : List (ℕ × ℕ)) (i : ℕ) : Bool := spans.any fun span => span.1 ≤ i && i < span.2

/-- What blanking makes of a character. -/
def blankChar (spans : List (ℕ × ℕ)) (i : ℕ) (c : Char) : Char :=
  if covers spans i && !isLineBreak c then ' ' else c

theorem blankChar_cons (span : ℕ × ℕ) (i : ℕ) (c : Char) :
    blankChar spans i (if span.1 ≤ i ∧ i < span.2 ∧ !isLineBreak c then ' ' else c) = blankChar (span :: spans) i c := by
  have hspace : isLineBreak ' ' = false := by decide
  unfold blankChar
  by_cases hspan : span.1 ≤ i ∧ i < span.2
  · have hcovers : covers (span :: spans) i = true := by simp [covers, hspan]
    cases hbreak : isLineBreak c with
    | true => simp [hbreak]
    | false => simp [hspan, hspace, hcovers]
  · have hcovers : covers (span :: spans) i = covers spans i := by
      rw [covers, covers, List.any_cons, ← Bool.decide_and, decide_eq_false hspan, Bool.false_or]
    have hkept : (if span.1 ≤ i ∧ i < span.2 ∧ !isLineBreak c then ' ' else c) = c :=
      if_neg fun h => hspan ⟨h.1, h.2.1⟩
    rw [hcovers, hkept]

theorem getElem?_blank (i : ℕ) : (blank text spans)[i]? = text[i]?.map (blankChar spans i) := by
  induction spans generalizing text with
  | nil =>
    change text[i]? = _
    cases text[i]? <;> rfl
  | cons span spans ih =>
    change (blank _ spans)[i]? = _
    rw [ih, List.getElem?_mapIdx, Option.map_map]
    congr 1
    funext c
    exact blankChar_cons span i c

theorem length_blank : (blank text spans).length = text.length := by
  induction spans generalizing text with
  | nil => rfl
  | cons span spans ih =>
    change (blank _ spans).length = _
    rw [ih, List.length_mapIdx]

theorem sameLayout_blank (text : Text) (spans : List (ℕ × ℕ)) : SameLayout text (blank text spans) where
  length := length_blank
  breaks i c hbreak := by
    rw [getElem?_blank]
    cases htext : text[i]? with
    | none => simp
    | some d =>
      rw [Option.map_some, Option.some.injEq, Option.some.injEq, blankChar]
      split
      · rename_i hblank
        have hspace : isLineBreak ' ' = false := by decide
        rw [Bool.and_eq_true, Bool.not_eq_true'] at hblank
        constructor
        · rintro rfl
          rw [hspace] at hbreak
          cases hbreak
        · rintro rfl
          rw [hbreak] at hblank
          cases hblank.2
      · rfl

theorem getElem?_slice {α : Type} (start stop i : ℕ) (l : List α) :
    (slice start stop l)[i]? = if start + i < stop then l[start + i]? else none := by
  rw [slice, List.getElem?_drop, List.getElem?_take]

/-- Blanking by spans that cover the same characters of a slice. -/
theorem slice_blank_congr {spans' : List (ℕ × ℕ)} {start stop : ℕ}
    (h : ∀ i, start ≤ i → i < stop → covers spans i = covers spans' i) :
    slice start stop (blank text spans) = slice start stop (blank text spans') := by
  refine List.ext_getElem? fun i => ?_
  rw [getElem?_slice, getElem?_slice]
  split
  · rename_i hlt
    have heq : blankChar spans (start + i) = blankChar spans' (start + i) := by
      funext c
      rw [blankChar, blankChar, h (start + i) (Nat.le_add_right _ _) hlt]
    rw [getElem?_blank, getElem?_blank, heq]
  · rfl

end Blank

/-! ## Units apart -/

section Apart

theorem mem_unitRefs {ref : UnitRef} :
    ref ∈ library.unitRefs ↔ ref.1 ∈ library.files ∧ ref.2 ∈ (library.index ref.1).units := by
  simp only [Library.unitRefs, List.mem_flatMap, List.mem_map]
  constructor
  · rintro ⟨file, hfile, unit, hunit, rfl⟩
    exact ⟨hfile, hunit⟩
  · rintro ⟨hfile, hunit⟩
    exact ⟨ref.1, hfile, ref.2, hunit, rfl⟩

theorem unitsIn_index (library : Library) (file : Text) :
    UnitsIn (library.index file).significant (library.index file).units :=
  unitsIn_ofText library.unicode (library.text file)

theorem lt_of_mem_unitRefs {ref : UnitRef} (h : ref ∈ library.unitRefs) : ref.2.start < ref.2.stop :=
  (unitsIn_index library ref.1).lt ref.2 (mem_unitRefs.1 h).2

/-- Two units of a file are the same, or one ends before the other starts. -/
theorem unitRefs_cases {ref other : UnitRef} (h : ref ∈ library.unitRefs) (h' : other ∈ library.unitRefs)
    (hfile : other.1 = ref.1) : ref = other ∨ ref.2.stop ≤ other.2.start ∨ other.2.stop ≤ ref.2.start := by
  have hother := (mem_unitRefs.1 h').2
  rw [hfile] at hother
  rcases pairwise_cases (unitsIn_index library ref.1).ordered (mem_unitRefs.1 h).2 hother with heq | hbefore | hafter
  · exact .inl (Prod.ext hfile.symm heq)
  · exact .inr (.inl hbefore)
  · exact .inr (.inr hafter)

/-- A unit is known by its file and its start. -/
theorem eq_of_keyOf_eq {ref other : UnitRef} (h : ref ∈ library.unitRefs) (h' : other ∈ library.unitRefs)
    (hkey : keyOf other = keyOf ref) : ref = other := by
  obtain ⟨hfile, hstart⟩ := Prod.mk.inj hkey
  have hlt := lt_of_mem_unitRefs h
  have hlt' := lt_of_mem_unitRefs h'
  rcases unitRefs_cases h h' hfile with heq | hbefore | hafter
  · exact heq
  · omega
  · omega

/-- What lies in another unit does not meet a unit. -/
theorem not_meets_of_inside {ref other : UnitRef} (h : ref ∈ library.unitRefs) (h' : other ∈ library.unitRefs)
    (hfile : other.1 = ref.1) (hne : ref ≠ other) {span : ℕ × ℕ} (hstart : other.2.start ≤ span.1)
    (hstop : span.2 ≤ other.2.stop) : ¬Meets span ref.2 := by
  rintro ⟨hlt, hlt'⟩
  rcases unitRefs_cases h h' hfile with heq | hbefore | hafter
  · exact hne heq
  · omega
  · omega

theorem mem_declaration_inside {ref : UnitRef} (h : ref ∈ library.unitRefs) {token : LosslessToken}
    (htoken : token ∈ library.tokensOf ref) : ref.2.start ≤ token.start ∧ token.stop ≤ ref.2.stop :=
  mem_unit_of_mem_take (placed_significant library.unicode (library.text ref.1)) (unitsIn_index library ref.1)
    (mem_unitRefs.1 h).2 htoken

/-- A declaration of a unit lies in it. -/
theorem extent_inside {ref : UnitRef} (h : ref ∈ library.unitRefs) {declaration : List LosslessToken}
    (hmem : declaration ∈ listDeclarations (library.tokensOf ref)) :
    ref.2.start ≤ (extent declaration).1 ∧ (extent declaration).2 ≤ ref.2.stop := by
  obtain ⟨⟨rest, hbody⟩, hall⟩ := declarationsFrom_spec (library.tokensOf ref).length (listBody (library.tokensOf ref))
  obtain ⟨tokens, after, htaken⟩ := hall declaration hmem
  obtain ⟨-, inner, semicolon, rfl, -⟩ := takeDeclaration_spec htaken
  have hinside (token : LosslessToken) (htoken : token ∈ inner ++ [semicolon]) :
      ref.2.start ≤ token.start ∧ token.stop ≤ ref.2.stop := by
    apply mem_declaration_inside h
    have hlist : token ∈ listBody (library.tokensOf ref) := by
      rw [hbody]
      exact List.mem_append_left _ (List.mem_flatten.2 ⟨_, hmem, htoken⟩)
    exact List.mem_of_mem_tail ((List.dropWhile_suffix _).subset hlist)
  constructor
  · cases inner with
    | nil => exact (hinside semicolon (by simp)).1
    | cons first inner => exact (hinside first (by simp)).1
  · rw [extent, List.getLast?_concat]
    exact (hinside semicolon (by simp)).2

end Apart

/-! ## What a round finds -/

section Findings

variable {s : State} {answer : BuildAnswer} {found found' : Findings}

/-- What fails is a unit under another status than `ok`, no other status changes, and the rest comes from
errors of the check. -/
structure Consistent (library : Library) (s : State) (answer : BuildAnswer) (found : Findings) : Prop where
  failing : ∀ ref ∈ found.failing, ref ∈ library.unitRefs ∧ found.status (keyOf ref) ≠ .ok
  status : ∀ key, found.status key ≠ s.status key → ∃ ref ∈ found.failing, keyOf ref = key
  declared : ∀ entry ∈ found.declared, ∃ diagnostic ∈ answer.check.errors, ∃ ref place,
    located library diagnostic = some (ref.1, place) ∧ place.unit = some ref.2 ∧ entry.1 = keyOf ref ∧
      declarationSpan (library.index ref.1) ref.2 place.offset = some entry.2
  orphans : ∀ orphan ∈ found.orphans, ∃ diagnostic ∈ answer.check.errors, ∃ place,
    located library diagnostic = some (orphan.1, place) ∧ place.unit = none ∧
      lineSpan (library.text orphan.1) diagnostic.line = some orphan.2

theorem Findings.reject_status (found : Findings) (ref : UnitRef) (status : UnitStatus) :
    (found.reject ref status).status = Function.update found.status (keyOf ref) status := rfl

theorem Consistent.reject (h : Consistent library s answer found) {ref : UnitRef} {status : UnitStatus}
    (href : ref ∈ library.unitRefs) (hstatus : status ≠ .ok) :
    Consistent library s answer (found.reject ref status) where
  failing other hother := by
    have hmem : other ∈ library.unitRefs := by
      rcases List.mem_append.1 hother with hother | hother
      · exact (h.failing other hother).1
      · exact List.mem_singleton.1 hother ▸ href
    refine ⟨hmem, ?_⟩
    by_cases hkey : keyOf other = keyOf ref
    · rw [Findings.reject_status, hkey, Function.update_self]
      exact hstatus
    · rw [Findings.reject_status, Function.update_of_ne hkey]
      rcases List.mem_append.1 hother with hother | hother
      · exact (h.failing other hother).2
      · exact absurd (congrArg keyOf (List.mem_singleton.1 hother)) hkey
  status key hkey := by
    by_cases heq : key = keyOf ref
    · exact ⟨ref, List.mem_append_right _ (List.mem_singleton_self ref), heq.symm⟩
    · rw [Findings.reject_status, Function.update_of_ne heq] at hkey
      exact (h.status key hkey).imp fun _ hfailing => hfailing.imp_left (List.mem_append_left _)
  declared := h.declared
  orphans := h.orphans

/-- Another status than `ok` is kept. -/
theorem statusOr_ne_ok (found : Findings) (ref : UnitRef) {status : UnitStatus} (hstatus : status ≠ .ok) :
    found.statusOr ref status ≠ .ok := by
  unfold Findings.statusOr
  split
  · exact hstatus
  · assumption

theorem Consistent.withErrors (h : Consistent library s answer found) :
    Consistent library s answer { found with configurationErrors := true } :=
  ⟨h.failing, h.status, h.declared, h.orphans⟩

theorem mem_of_located {diagnostic : Diagnostic} {file : Text} {place : Located} {unit : Unit}
    (h : located library diagnostic = some (file, place)) (hunit : place.unit = some unit) :
    (file, unit) ∈ library.unitRefs := by
  obtain ⟨name, hname, heq⟩ := Option.map_eq_some_iff.1 h
  cases heq
  have hfile : file ∈ library.files := by simpa using (Option.filter_eq_some_iff.1 hname).2
  refine mem_unitRefs.2 ⟨hfile, ?_⟩
  unfold locate at hunit
  split at hunit
  · cases hunit
  · exact List.mem_of_find?_eq_some hunit

theorem consistent_addDiagnostic (h : Consistent library s answer found) {diagnostic : Diagnostic}
    (hmem : diagnostic ∈ answer.check.errors) {referenced : Option Text}
    (hadd : addDiagnostic library s found diagnostic referenced = some found') :
    Consistent library s answer found' := by
  unfold addDiagnostic at hadd
  split at hadd
  · cases hadd
    exact ⟨h.failing, h.status, h.declared, h.orphans⟩
  · rename_i file place hlocated
    split at hadd
    · rename_i hunit
      obtain ⟨span, hspan, hadd⟩ := Option.bind_eq_some_iff.1 hadd
      cases hadd
      split
      · exact h
      · refine ⟨h.failing, h.status, h.declared, fun orphan horphan => ?_⟩
        rcases List.mem_append.1 horphan with horphan | horphan
        · exact h.orphans orphan horphan
        · rw [List.mem_singleton] at horphan
          subst horphan
          exact ⟨diagnostic, hmem, place, hlocated, hunit, hspan⟩
    · rename_i unit hunit
      cases hadd
      have hstatus : (if referenced.any (fun name => name ≠ [] && library.upper name ∈ s.blankedNames) then
          UnitStatus.dependsOnUnsupported else .typeError) ≠ .ok := by split <;> decide
      have hreject := h.reject (mem_of_located hlocated hunit) (statusOr_ne_ok found (file, unit) hstatus)
      refine ⟨hreject.failing, hreject.status, fun entry hentry => ?_, hreject.orphans⟩
      rcases List.mem_append.1 hentry with hentry | hentry
      · exact h.declared entry hentry
      · obtain ⟨span, hspan, rfl⟩ := List.mem_map.1 hentry
        exact ⟨diagnostic, hmem, (file, unit), place, hlocated, hunit, rfl, Option.mem_toList.1 hspan⟩

theorem foldlM_invariant {α β : Type} {P : β → Prop} {f : β → α → Option β} (l : List α) {b b' : β}
    (hstep : ∀ a ∈ l, ∀ b b', P b → f b a = some b' → P b') (hb : P b) (h : l.foldlM f b = some b') : P b' := by
  induction l generalizing b with
  | nil =>
    cases h
    exact hb
  | cons a l ih =>
    obtain ⟨next, hnext, hrest⟩ := Option.bind_eq_some_iff.1 h
    exact ih (fun a ha => hstep a (List.mem_cons_of_mem _ ha)) (hstep a List.mem_cons_self b next hb hnext) hrest

theorem mem_of_activeUnits {status : Text × ℕ → UnitStatus} {ref : UnitRef} (h : ref ∈ activeUnits library status) :
    ref ∈ library.unitRefs :=
  List.mem_of_mem_filter h

theorem consistent_checkStage (h : checkStage library s answer = some found) : Consistent library s answer found := by
  obtain ⟨checked, hchecked, h⟩ := Option.bind_eq_some_iff.1 h
  have hstart : Consistent library s answer { status := s.status, configurationErrors := s.configurationErrors } :=
    ⟨by simp, fun key hkey => absurd rfl hkey, by simp, by simp⟩
  have hconsistent : Consistent library s answer checked := by
    refine foldlM_invariant _ (fun entry hentry found found' hfound hadd => ?_) hstart hchecked
    exact consistent_addDiagnostic hfound (List.fst_mem_of_mem_zipIdx hentry) hadd
  have hunparsed : Consistent library s answer
      (if answer.check.unparsedFailure then { checked with configurationErrors := true } else checked) := by
    split
    · exact hconsistent.withErrors
    · exact hconsistent
  dsimp only at h
  generalize (if answer.check.unparsedFailure then { checked with configurationErrors := true } else checked :
    Findings) = unparsed at h hunparsed
  split at h
  · split at h
    · rename_i ref hculprit
      cases h
      obtain ⟨i, -, hactive⟩ := Option.bind_eq_some_iff.1 hculprit
      exact hunparsed.reject (mem_of_activeUnits (List.mem_of_getElem? hactive)) (by decide)
    · cases h
      exact hunparsed.withErrors
  · cases h
    exact hunparsed

/-- Rejecting units one after the other. -/
theorem consistent_foldl {status : Findings → UnitRef → UnitStatus} (hstatus : ∀ found ref, status found ref ≠ .ok)
    {refs : List UnitRef} (hrefs : ∀ ref ∈ refs, ref ∈ library.unitRefs) (h : Consistent library s answer found) :
    Consistent library s answer (refs.foldl (fun found ref => found.reject ref (status found ref)) found) := by
  induction refs generalizing found with
  | nil => exact h
  | cons ref refs ih =>
    exact ih (fun ref href => hrefs ref (List.mem_cons_of_mem _ href))
      (h.reject (hrefs ref List.mem_cons_self) (hstatus found ref))

theorem mem_of_cascade {removed : List (Text × ℕ × ℕ)} {result : CompileResult} {failed : UnitRef × (ℕ × ℕ)}
    (h : failed ∈ cascade library removed result) : failed.1 ∈ library.unitRefs := by
  obtain ⟨diagnostic, -, h⟩ := List.mem_filterMap.1 h
  obtain ⟨⟨file, place⟩, hlocated, h⟩ := Option.bind_eq_some_iff.1 h
  obtain ⟨unit, hunit, h⟩ := Option.bind_eq_some_iff.1 h
  dsimp only at h
  split at h
  · cases h
  · cases h
    exact mem_of_located hlocated hunit

theorem mem_of_removeCascade {failed : List (UnitRef × (ℕ × ℕ))} {state : List (Text × ℕ × ℕ) × List UnitRef}
    (hfailed : ∀ entry ∈ failed, entry.1 ∈ library.unitRefs) (hstate : ∀ ref ∈ state.2, ref ∈ library.unitRefs) :
    ∀ ref ∈ (failed.foldl removeCascade state).2, ref ∈ library.unitRefs := by
  induction failed generalizing state with
  | nil => exact hstate
  | cons entry failed ih =>
    refine ih (fun other hother => hfailed other (List.mem_cons_of_mem _ hother)) fun ref href => ?_
    unfold removeCascade at href
    dsimp only at href
    split at href
    · exact hstate ref href
    · split at href
      · rcases List.mem_append.1 href with href | href
        · exact hstate ref href
        · exact List.mem_singleton.1 href ▸ hfailed entry List.mem_cons_self
      · exact hstate ref href

theorem mem_of_dependentsOf {checks : ℕ → CompileResult} {fuel r : ℕ} {state : List (Text × ℕ × ℕ) × List UnitRef}
    {dependents : List UnitRef} (hstate : ∀ ref ∈ state.2, ref ∈ library.unitRefs)
    (h : dependentsOf library checks fuel r state = some dependents) : ∀ ref ∈ dependents, ref ∈ library.unitRefs := by
  induction fuel generalizing r state with
  | zero => cases h
  | succ fuel ih =>
    unfold dependentsOf at h
    dsimp only at h
    split at h
    · split at h
      · cases h
      · cases h
        exact hstate
    · exact ih (mem_of_removeCascade (fun _ => mem_of_cascade) hstate) h

theorem mem_of_codegenCulprit {ref : UnitRef} {dependents : List UnitRef}
    (h : codegenCulprit library s found answer = some (ref, dependents)) :
    ref ∈ library.unitRefs ∧ ∀ dependent ∈ dependents, dependent ∈ library.unitRefs := by
  unfold codegenCulprit at h
  split at h
  · split at h
    · rename_i culprit hculprit
      cases h
      obtain ⟨⟨candidate, i⟩, hmem, h⟩ := List.exists_of_findSome?_eq_some hculprit
      obtain ⟨found, hfound, h⟩ := Option.bind_eq_some_iff.1 h
      split at h
      · cases h
      · cases h
        have hcandidate := List.mem_of_mem_take (List.fst_mem_of_mem_zipIdx hmem)
        exact ⟨mem_of_activeUnits (List.mem_of_mem_filter hcandidate), mem_of_dependentsOf (by simp) hfound⟩
    · obtain ⟨culprit, hculprit, heq⟩ := Option.map_eq_some_iff.1 h
      cases heq
      obtain ⟨i, -, hactive⟩ := Option.bind_eq_some_iff.1 hculprit
      exact ⟨mem_of_activeUnits (List.mem_of_getElem? hactive), by simp⟩
  · cases h

theorem mem_of_usersOf {ref : UnitRef} {name : Text} (h : ref ∈ usersOf library found name) :
    ref ∈ library.unitRefs :=
  mem_of_activeUnits (List.mem_of_mem_filter h)

theorem mem_of_missingUsers {ref : UnitRef} {output : Text} (h : ref ∈ missingUsers library s found output) :
    ref ∈ library.unitRefs := by
  unfold missingUsers at h
  dsimp only at h
  split at h
  · split at h
    · exact mem_of_usersOf h
    · cases h
  · cases hfind : (library.patterns.dumpedNames output).find? fun name =>
        decide (library.upper name ∈ s.blankedNames) with
    | none =>
      rw [hfind] at h
      cases h
    | some name =>
      rw [hfind] at h
      exact mem_of_usersOf h

theorem consistent_codegenStage (h : Consistent library s answer found) :
    Consistent library s answer (codegenStage library s found answer).1 := by
  unfold codegenStage
  split
  · refine List.foldlRecOn (motive := fun state : Findings × Bool => Consistent library s answer state.1) answer.generated.errors _ h ?_
    rintro ⟨found, locatedAny⟩ hstate diagnostic -
    dsimp only
    split
    · rename_i ref hlocated
      obtain ⟨⟨file, place⟩, hplace, hmap⟩ := Option.bind_eq_some_iff.1 hlocated
      obtain ⟨unit, hunit, rfl⟩ := Option.map_eq_some_iff.1 hmap
      exact hstate.reject (mem_of_located hplace hunit) (by decide)
    · exact hstate.withErrors
  · split
    · split
      · exact h.withErrors
      · rename_i ref dependents hculprit
        obtain ⟨href, hdependents⟩ := mem_of_codegenCulprit hculprit
        exact consistent_foldl (fun found dependent => statusOr_ne_ok found dependent (by decide)) hdependents
          (h.reject href (by decide))
    · exact consistent_foldl (fun _ _ => by decide) (fun ref href => mem_of_missingUsers href) h

theorem consistent_panicStage (h : Consistent library s answer found) {status : UnitStatus} (hstatus : status ≠ .ok)
    {panicStart : ℕ} (hpanic : panicStage library s found answer status = some (found', panicStart)) :
    Consistent library s answer found' := by
  obtain ⟨culprit, -, hpanic⟩ := Option.bind_eq_some_iff.1 hpanic
  obtain ⟨ref, href, hpanic⟩ := Option.bind_eq_some_iff.1 hpanic
  cases hpanic
  refine h.reject (mem_of_activeUnits (List.mem_of_getElem? href)) ?_
  split
  · exact hstatus
  · decide

/-- **The next round starts from what a round consistently finds.** -/
theorem round_again {s' : State} (h : round library s answer = .again s') :
    ∃ found panicStart, Consistent library s answer found ∧ finish library s found panicStart = .again s' := by
  unfold round at h
  split at h
  · cases h
  rename_i found hcheck
  have hfound := consistent_checkStage hcheck
  have hpanic {status : UnitStatus} (hstatus : status ≠ .ok)
      (hfinish : finishPanic library s found answer status = .again s') :
      ∃ found panicStart, Consistent library s answer found ∧ finish library s found panicStart = .again s' := by
    unfold finishPanic at hfinish
    split at hfinish
    · rename_i found' panicStart hstage
      exact ⟨found', panicStart, consistent_panicStage hfound hstatus hstage, hfinish⟩
    · cases hfinish
  split at h
  · exact hpanic (by decide) h
  split at h
  · split at h
    · exact hpanic (by decide) h
    split at h
    · split at h <;> cases h
    dsimp only at h
    split at h
    · exact ⟨_, 0, consistent_codegenStage hfound, h⟩
    · cases h
  · exact ⟨found, 0, hfound, h⟩

/-- A round that accepts IR changes no status and blanks nothing. -/
theorem round_accepted {s' : State} (h : round library s answer = .accepted s') :
    s'.status = s.status ∧ s'.spans = s.spans := by
  unfold round at h
  split at h
  · cases h
  rename_i found hcheck
  have hnever {found : Findings} {panicStart : ℕ} : finish library s found panicStart ≠ .accepted s' := by
    unfold finish
    intro hfinish
    split at hfinish
    · cases hfinish
    · dsimp only at hfinish
      split at hfinish <;> cases hfinish
  have hpanic {status : UnitStatus} : finishPanic library s found answer status ≠ .accepted s' := by
    unfold finishPanic
    split
    · exact hnever
    · intro hfinish
      cases hfinish
  split at h
  · exact absurd h hpanic
  split at h
  · rename_i hcodegen
    split at h
    · exact absurd h hpanic
    split at h
    · split at h
      · cases h
        refine ⟨?_, rfl⟩
        have hnone : answer.check.errors = [] := by
          simp only [Bool.and_eq_true, List.isEmpty_iff] at hcodegen
          exact hcodegen.1
        unfold checkStage at hcheck
        rw [hnone] at hcheck
        simp only [List.zipIdx_nil, List.foldlM_nil] at hcheck
        cases hunparsed : answer.check.unparsedFailure with
        | true =>
          rw [hunparsed] at hcheck
          cases hcheck
          rfl
        | false =>
          rw [hunparsed] at hcheck
          cases hcheck
          rfl
      · cases h
    dsimp only at h
    split at h
    · exact absurd h hnever
    · cases h
  · exact absurd h hnever

end Findings

/-! ## What a round blanks -/

section Blanking

variable {declared : List ((Text × ℕ) × (ℕ × ℕ))}

/-- What is blanked for units: their spans, or declarations that were found for them. -/
structure Extended (declared : List ((Text × ℕ) × (ℕ × ℕ))) (refs : List UnitRef) (s s' : State) : Prop where
  status : s'.status = s.status
  subset : ∀ file, s.spans file ⊆ s'.spans file
  from_ : ∀ file, ∀ span ∈ s'.spans file, span ∈ s.spans file ∨
    ∃ ref ∈ refs, ref.1 = file ∧ (span = spanOf ref.2 ∨ (keyOf ref, span) ∈ declared)
  blanked : ∀ ref ∈ refs, spanOf ref.2 ∈ s'.spans ref.1 ∨ ∃ span, (keyOf ref, span) ∈ declared

theorem mem_update_append {spans : Text → List (ℕ × ℕ)} {name : Text} {added : List (ℕ × ℕ)} {file : Text}
    {span : ℕ × ℕ} :
    span ∈ Function.update spans name (spans name ++ added) file ↔ span ∈ spans file ∨ file = name ∧ span ∈ added := by
  by_cases hfile : file = name
  · subst hfile
    rw [Function.update_self, List.mem_append]
    simp
  · rw [Function.update_of_ne hfile]
    simp [hfile]

theorem extended_blankUnit (library : Library) (s : State) (ref : UnitRef) :
    Extended declared [ref] s (blankUnit library declared s ref) := by
  unfold blankUnit
  dsimp only
  split
  · rename_i hdeclarations
    have hmem (span : ℕ × ℕ) (hspan : span ∈ sortBy (fun a b => (compare a.1 b.1).then (compare a.2 b.2))
        (((declared.filter fun entry => entry.1 = keyOf ref).map Prod.snd).eraseDups.filter
          (· ∉ s.spans ref.1))) : (keyOf ref, span) ∈ declared := by
      rw [sortBy, (List.perm_insertionSort _ _).mem_iff, List.mem_filter, List.mem_eraseDups, List.mem_map] at hspan
      obtain ⟨⟨entry, hentry, rfl⟩, -⟩ := hspan
      obtain ⟨hentry, hkey⟩ := List.mem_filter.1 hentry
      rw [← of_decide_eq_true hkey]
      exact hentry
    refine ⟨rfl, fun file span hspan => mem_update_append.2 (.inl hspan), fun file span hspan => ?_, fun other hother => ?_⟩
    · rcases mem_update_append.1 hspan with hold | ⟨rfl, hnew⟩
      · exact .inl hold
      · exact .inr ⟨ref, List.mem_singleton_self ref, rfl, .inr (hmem span hnew)⟩
    · rw [List.mem_singleton.1 hother]
      obtain ⟨span, hspan⟩ := List.exists_mem_of_ne_nil _ hdeclarations.1
      exact .inr ⟨span, hmem span hspan⟩
  · refine ⟨rfl, fun file span hspan => mem_update_append.2 (.inl hspan), fun file span hspan => ?_, fun other hother => ?_⟩
    · rcases mem_update_append.1 hspan with hold | ⟨rfl, hnew⟩
      · exact .inl hold
      · exact .inr ⟨ref, List.mem_singleton_self ref, rfl, .inl (List.mem_singleton.1 hnew)⟩
    · rw [List.mem_singleton.1 hother]
      exact .inl (mem_update_append.2 (.inr ⟨rfl, List.mem_singleton_self _⟩))

theorem extended_foldl (library : Library) (refs : List UnitRef) (s : State) :
    Extended declared refs s (refs.foldl (blankUnit library declared) s) := by
  induction refs generalizing s with
  | nil => exact ⟨rfl, fun _ _ h => h, fun _ _ h => .inl h, by simp⟩
  | cons ref refs ih =>
    have hfirst : Extended declared [ref] s (blankUnit library declared s ref) := extended_blankUnit library s ref
    have hrest := ih (blankUnit library declared s ref)
    refine ⟨hrest.status.trans hfirst.status, fun file span hspan => hrest.subset file (hfirst.subset file hspan),
      fun file span hspan => ?_, fun other hother => ?_⟩
    · rcases hrest.from_ file span hspan with hspan | ⟨other, hother, hspan⟩
      · rcases hfirst.from_ file span hspan with hspan | ⟨other, hother, hspan⟩
        · exact .inl hspan
        · exact .inr ⟨other, List.mem_singleton.1 hother ▸ List.mem_cons_self, hspan⟩
      · exact .inr ⟨other, List.mem_cons_of_mem _ hother, hspan⟩
    · rcases List.mem_cons.1 hother with rfl | hother
      · exact (hfirst.blanked _ (List.mem_singleton_self _)).imp_left (hrest.subset _ ·)
      · exact hrest.blanked other hother

end Blanking

/-! ## Runs -/

section Runs

variable {run : List (State × BuildAnswer)} {s s' : State} {answer : BuildAnswer}

/-- The statuses and the spans agree. -/
structure Sound (library : Library) (run : List (State × BuildAnswer)) (s : State) : Prop where
  ok : ∀ ref ∈ library.unitRefs, s.status (keyOf ref) = .ok → ∀ span ∈ s.spans ref.1, ¬Meets span ref.2
  rejected : ∀ ref ∈ library.unitRefs, s.status (keyOf ref) ≠ .ok → spanOf ref.2 ∈ s.spans ref.1 ∨
    ref.2.kind = "VAR_GLOBAL".toList ∧ ∀ span ∈ s.spans ref.1, Meets span ref.2 →
      ∃ declaration, LostDeclaration library run ref declaration ∧ span = extent declaration

theorem meets_spanOf {ref : UnitRef} (h : ref ∈ library.unitRefs) : Meets (spanOf ref.2) ref.2 :=
  ⟨lt_of_mem_unitRefs h, lt_of_mem_unitRefs h⟩

/-- The span found for an error in a clean round is that of a lost declaration. -/
theorem lostDeclaration_of_declared (hrun : (s, answer) ∈ run) (hclean : Clean library s answer)
    {found : Findings} (hfound : Consistent library s answer found) {ref : UnitRef} (href : ref ∈ library.unitRefs)
    {span : ℕ × ℕ} (hspan : (keyOf ref, span) ∈ found.declared) :
    ref.2.kind = "VAR_GLOBAL".toList ∧ ∃ declaration, LostDeclaration library run ref declaration ∧
      span = extent declaration := by
  obtain ⟨diagnostic, hmem, other, place, hlocated, hunit, hkey, hfound⟩ := hfound.declared _ hspan
  have heq := eq_of_keyOf_eq (mem_of_located hlocated hunit) href hkey
  subst heq
  refine ⟨?_, ?_⟩
  · unfold declarationSpan at hfound
    split at hfound
    · cases hfound
    · rename_i hkind
      exact not_not.1 hkind
  · have hin := (hclean diagnostic hmem _ hlocated).2 _ hunit (by rw [hfound]; exact Option.some_ne_none _)
    obtain ⟨declaration, at_, hat, hlist, hextent⟩ := declarationSpan_eq_extent hfound hin
    exact ⟨declaration, ⟨hlist, (s, answer), hrun, diagnostic, hmem, place, at_, hlocated, hunit, hat⟩, hextent⟩

/-- What a clean round blanks does not meet a unit, unless it was or is blanked as a whole or has failed and
loses a declaration. -/
theorem new_span_cases (hrun : (s, answer) ∈ run) (hclean : Clean library s answer) {found : Findings}
    (hfound : Consistent library s answer found) {refs : List UnitRef} (hrefs : refs ⊆ found.failing)
    {ref : UnitRef} (href : ref ∈ library.unitRefs) {span : ℕ × ℕ} (hmeets : Meets span ref.2)
    (hspan : (ref.1, span) ∈ found.orphans ∨
      ∃ other ∈ refs, other.1 = ref.1 ∧ (span = spanOf other.2 ∨ (keyOf other, span) ∈ found.declared)) :
    spanOf ref.2 ∈ s.spans ref.1 ∨ ref ∈ found.failing ∧ (span = spanOf ref.2 ∨
      ref.2.kind = "VAR_GLOBAL".toList ∧
        ∃ declaration, LostDeclaration library run ref declaration ∧ span = extent declaration) := by
  rcases hspan with horphan | ⟨other, hother, hfile, hspan⟩
  · obtain ⟨diagnostic, hmem, place, hlocated, hunit, hline⟩ := hfound.orphans _ horphan
    exact .inl ((hclean diagnostic hmem _ hlocated).1 hunit span hline ref.2 (mem_unitRefs.1 href).2 hmeets)
  · obtain ⟨hmem, -⟩ := hfound.failing other (hrefs hother)
    by_cases heq : ref = other
    · subst heq
      refine .inr ⟨hrefs hother, hspan.imp_right fun hdeclared => ?_⟩
      exact lostDeclaration_of_declared hrun hclean hfound href hdeclared
    · rcases hspan with rfl | hdeclared
      · exact absurd hmeets (not_meets_of_inside href hmem hfile heq (Nat.le_refl _) (Nat.le_refl _))
      · obtain ⟨-, declaration, hlost, rfl⟩ := lostDeclaration_of_declared hrun hclean hfound hmem hdeclared
        obtain ⟨hstart, hstop⟩ := extent_inside hmem hlost.mem
        exact absurd hmeets (not_meets_of_inside href hmem hfile heq hstart hstop)

/-- **A clean round keeps statuses and spans in agreement.** -/
theorem Sound.finish (h : Sound library run s) (hrun : (s, answer) ∈ run) (hclean : Clean library s answer)
    {found : Findings} (hfound : Consistent library s answer found) {panicStart : ℕ}
    (hfinish : finish library s found panicStart = .again s') : Sound library run s' := by
  unfold Build.finish at hfinish
  split at hfinish
  · cases hfinish
  dsimp only at hfinish
  split at hfinish
  · cases hfinish
  cases hfinish
  generalize hrefs : (found.failing.filter fun ref => spanOf ref.2 ∉
    s.spans ref.1 ++ (found.orphans.filter fun orphan => orphan.1 = ref.1).map Prod.snd).eraseDups = refs
  generalize hstart : ({ s with
    status := found.status
    spans := fun file => s.spans file ++ (found.orphans.filter fun orphan => orphan.1 = file).map Prod.snd
    configurationErrors := found.configurationErrors
    orphanLines := s.orphanLines ++ found.orphans
    panicStart := panicStart } : State) = start
  have hextended : Extended found.declared refs start (refs.foldl (blankUnit library found.declared) start) :=
    extended_foldl library refs start
  have hstatus : (refs.foldl (blankUnit library found.declared) start).status = found.status := by
    rw [hextended.status, ← hstart]
  have hsubset : refs ⊆ found.failing := fun ref href => by
    rw [← hrefs, List.mem_eraseDups] at href
    exact List.mem_of_mem_filter href
  have hold (file : Text) : s.spans file ⊆ (refs.foldl (blankUnit library found.declared) start).spans file :=
    fun span hspan => hextended.subset file (by rw [← hstart]; exact List.mem_append_left _ hspan)
  have hspans (ref : UnitRef) (span : ℕ × ℕ)
      (hspan : span ∈ (refs.foldl (blankUnit library found.declared) start).spans ref.1) :
      span ∈ s.spans ref.1 ∨ (ref.1, span) ∈ found.orphans ∨
        ∃ other ∈ refs, other.1 = ref.1 ∧ (span = spanOf other.2 ∨ (keyOf other, span) ∈ found.declared) := by
    rcases hextended.from_ ref.1 span hspan with hbefore | hnew
    · rw [← hstart] at hbefore
      rcases List.mem_append.1 hbefore with hbefore | horphan
      · exact .inl hbefore
      · obtain ⟨orphan, hmem, rfl⟩ := List.mem_map.1 horphan
        obtain ⟨hmem, hfile⟩ := List.mem_filter.1 hmem
        rw [← of_decide_eq_true hfile]
        exact .inr (.inl hmem)
    · exact .inr (.inr hnew)
  refine ⟨fun ref href hok span hspan hmeets => ?_, fun ref href hnot => ?_⟩
  · rw [hstatus] at hok
    have hnotFailing : ref ∉ found.failing := fun hfailing => (hfound.failing ref hfailing).2 hok
    have hokBefore : s.status (keyOf ref) = .ok := by
      by_contra hbefore
      obtain ⟨other, hother, hkey⟩ := hfound.status (keyOf ref) (by rw [hok]; exact Ne.symm hbefore)
      exact hnotFailing (eq_of_keyOf_eq href (hfound.failing other hother).1 hkey ▸ hother)
    have hapart := h.ok ref href hokBefore
    rcases hspans ref span hspan with hbefore | hnew
    · exact hapart span hbefore hmeets
    · rcases new_span_cases hrun hclean hfound hsubset href hmeets hnew with hwhole | ⟨hfailing, -⟩
      · exact hapart _ hwhole (meets_spanOf href)
      · exact hnotFailing hfailing
  · rw [hstatus] at hnot
    by_cases hwhole : spanOf ref.2 ∈ (refs.foldl (blankUnit library found.declared) start).spans ref.1
    · exact .inl hwhole
    have hnotBefore : spanOf ref.2 ∉ s.spans ref.1 := fun hmem => hwhole (hold ref.1 hmem)
    -- a unit that is not blanked as a whole was so before, or has just lost declarations
    have hcases : s.status (keyOf ref) ≠ .ok ∨ ref ∈ found.failing := by
      by_cases hbefore : s.status (keyOf ref) = .ok
      · obtain ⟨other, hother, hkey⟩ := hfound.status (keyOf ref) (by rw [hbefore]; exact hnot)
        exact .inr (eq_of_keyOf_eq href (hfound.failing other hother).1 hkey ▸ hother)
      · exact .inl hbefore
    have hlost (span : ℕ × ℕ) (hspan : span ∈ (refs.foldl (blankUnit library found.declared) start).spans ref.1)
        (hmeets : Meets span ref.2) :
        ∃ declaration, LostDeclaration library run ref declaration ∧ span = extent declaration := by
      rcases hspans ref span hspan with hbefore | hnew
      · by_cases hok : s.status (keyOf ref) = .ok
        · exact absurd hmeets (h.ok ref href hok span hbefore)
        · exact ((h.rejected ref href hok).resolve_left hnotBefore).2 span hbefore hmeets
      · rcases new_span_cases hrun hclean hfound hsubset href hmeets hnew with hmem | ⟨-, rfl | ⟨-, hdeclaration⟩⟩
        · exact absurd hmem hnotBefore
        · exact absurd hspan hwhole
        · exact hdeclaration
    refine .inr ⟨?_, hlost⟩
    rcases hcases with hbefore | hfailing
    · exact ((h.rejected ref href hbefore).resolve_left hnotBefore).1
    · have hmem : ref ∈ refs := by
        rw [← hrefs, List.mem_eraseDups, List.mem_filter]
        refine ⟨hfailing, decide_eq_true fun hmem => hwhole (hextended.subset ref.1 ?_)⟩
        rw [← hstart]
        exact hmem
      obtain ⟨span, hspan⟩ := (hextended.blanked ref hmem).resolve_left hwhole
      exact (lostDeclaration_of_declared hrun hclean hfound href hspan).1

/-- **A run of clean rounds keeps statuses and spans in agreement.** -/
theorem Sound.acceptedState (h : Sound library run s) (answers : List BuildAnswer)
    (hrun : ∀ round ∈ rounds library s answers, round ∈ run ∧ Clean library round.1 round.2)
    (haccepted : acceptedState library s answers = some s') : Sound library run s' := by
  induction answers generalizing s with
  | nil => cases haccepted
  | cons answer answers ih =>
    obtain ⟨hmem, hclean⟩ := hrun (s, answer) List.mem_cons_self
    unfold Build.acceptedState at haccepted
    split at haccepted
    · rename_i state hround
      cases haccepted
      obtain ⟨hstatus, hspans⟩ := round_accepted hround
      exact ⟨fun ref href hok => hspans ▸ h.ok ref href (hstatus ▸ hok),
        fun ref href hnot => hspans ▸ h.rejected ref href (hstatus ▸ hnot)⟩
    · cases haccepted
    · rename_i state hround
      obtain ⟨found, panicStart, hfound, hfinish⟩ := round_again hround
      refine ih (h.finish hmem hclean hfound hfinish) (fun round hmem => hrun round ?_) haccepted
      rw [rounds, hround]
      exact List.mem_cons_of_mem _ hmem

/-- At the start, the units that are excluded are blanked. -/
theorem sound_exclude (library : Library) (run : List (State × BuildAnswer)) (excluded : Text × Text → Bool) :
    Sound library run (exclude library excluded) := by
  have hfold (refs : List UnitRef) (hrefs : refs ⊆ library.unitRefs) (s : State)
      (hspans : ∀ file, ∀ span ∈ s.spans file, ∃ ref ∈ library.unitRefs, ref.1 = file ∧ span = spanOf ref.2 ∧
        s.status (keyOf ref) ≠ .ok)
      (hrejected : ∀ ref ∈ library.unitRefs, s.status (keyOf ref) ≠ .ok → spanOf ref.2 ∈ s.spans ref.1) :
      Sound library run (refs.foldl (excludeUnit library excluded) s) := by
    induction refs generalizing s with
    | nil =>
      refine ⟨fun ref href hok span hspan hmeets => ?_, fun ref href hnot => .inl (hrejected ref href hnot)⟩
      obtain ⟨other, hother, hfile, rfl, hnot⟩ := hspans ref.1 span hspan
      have hne : ref ≠ other := by
        rintro rfl
        exact hnot hok
      exact not_meets_of_inside href hother hfile hne (Nat.le_refl _) (Nat.le_refl _) hmeets
    | cons ref refs ih =>
      obtain ⟨href, hrefs⟩ := List.cons_subset.1 hrefs
      refine ih hrefs (excludeUnit library excluded s ref) ?_ ?_
      · unfold excludeUnit
        split
        · intro file span hspan
          rcases mem_update_append.1 hspan with hold | ⟨rfl, hnew⟩
          · obtain ⟨other, hother, hfile, heq, hnot⟩ := hspans file span hold
            refine ⟨other, hother, hfile, heq, ?_⟩
            by_cases hkey : keyOf other = keyOf ref
            · simp [hkey]
            · simpa [hkey] using hnot
          · exact ⟨ref, href, rfl, List.mem_singleton.1 hnew, by simp⟩
        · exact hspans
      · unfold excludeUnit
        split
        · intro other hother hnot
          apply mem_update_append.2
          by_cases hkey : keyOf other = keyOf ref
          · cases eq_of_keyOf_eq hother href hkey.symm
            exact .inr ⟨rfl, List.mem_singleton_self _⟩
          · exact .inl (hrejected other hother (by simpa [hkey] using hnot))
        · exact hrejected
  exact hfold library.unitRefs (List.Subset.refl _) {} (by simp) (fun ref _ hnot => absurd rfl hnot)

/-- The preimages of the members of a list. -/
theorem exists_map_eq {α β : Type} {P : β → Prop} {f : β → α} {l : List α} (h : ∀ a ∈ l, ∃ b, P b ∧ a = f b) :
    ∃ bs : List β, (∀ b ∈ bs, P b) ∧ bs.map f = l := by
  induction l with
  | nil => exact ⟨[], by simp, rfl⟩
  | cons a l ih =>
    obtain ⟨b, hb, rfl⟩ := h a List.mem_cons_self
    obtain ⟨bs, hbs, rfl⟩ := ih fun a ha => h a (List.mem_cons_of_mem _ ha)
    exact ⟨b :: bs, by simpa using ⟨hb, hbs⟩, rfl⟩

theorem covers_eq_true {spans : List (ℕ × ℕ)} {i : ℕ} :
    covers spans i = true ↔ ∃ span ∈ spans, span.1 ≤ i ∧ i < span.2 := by
  simp [covers]

/-- Spans that do not meet a unit leave its text as it is. -/
theorem slice_blank_apart {text : Text} {spans : List (ℕ × ℕ)} {unit : Unit}
    (h : ∀ span ∈ spans, ¬Meets span unit) :
    slice unit.start unit.stop (blank text spans) = slice unit.start unit.stop text := by
  change _ = slice unit.start unit.stop (blank text [])
  refine slice_blank_congr fun i hstart hstop => ?_
  have hnil : covers [] i = false := rfl
  rw [hnil, Bool.eq_false_iff, Ne, covers_eq_true]
  rintro ⟨span, hspan, hle, hlt⟩
  exact h span hspan ⟨by omega, by omega⟩

/-- A unit whose span is blanked is blank. -/
theorem blank_of_mem {text : Text} {spans : List (ℕ × ℕ)} {unit : Unit} (h : spanOf unit ∈ spans) :
    ∀ c ∈ slice unit.start unit.stop (blank text spans), c = ' ' ∨ isLineBreak c = true := by
  intro c hc
  obtain ⟨i, hi⟩ := List.mem_iff_getElem?.1 hc
  rw [getElem?_slice] at hi
  split at hi
  · rename_i hlt
    rw [getElem?_blank] at hi
    obtain ⟨d, -, rfl⟩ := Option.map_eq_some_iff.1 hi
    have hcovers : covers spans (unit.start + i) = true :=
      covers_eq_true.2 ⟨spanOf unit, h, Nat.le_add_right _ _, hlt⟩
    unfold blankChar
    rw [hcovers, Bool.true_and]
    split
    · exact .inl rfl
    · rename_i hbreak
      exact .inr (by simpa using hbreak)
  · cases hi

/-- Where statuses and spans agree, the evidence is faithful. -/
theorem Sound.faithful (h : Sound library run s) :
    Faithful library run {
      status := s.status
      acceptedTexts := fun file => blank (library.text file) (s.spans file) } where
  layout file := sameLayout_blank _ _
  ok ref href hok := slice_blank_apart (h.ok ref href hok)
  rejected ref href hnot := by
    rcases h.rejected ref href hnot with hwhole | ⟨hkind, hlost⟩
    · exact .inl (blank_of_mem hwhole)
    · refine .inr ⟨hkind, ?_⟩
      obtain ⟨lost, hall, hextents⟩ := exists_map_eq (P := LostDeclaration library run ref) (f := extent)
        (l := (s.spans ref.1).filter fun span => Meets span ref.2)
        (fun span hspan => by
          obtain ⟨hmem, hmeets⟩ := List.mem_filter.1 hspan
          exact hlost span hmem (of_decide_eq_true hmeets))
      refine ⟨lost, hall, slice_blank_congr fun i hstart hstop => ?_⟩
      rw [hextents, Bool.eq_iff_iff, covers_eq_true, covers_eq_true]
      constructor
      · rintro ⟨span, hspan, hle, hlt⟩
        exact ⟨span, List.mem_filter.2 ⟨hspan, decide_eq_true ⟨by omega, by omega⟩⟩, hle, hlt⟩
      · rintro ⟨span, hspan, hle, hlt⟩
        exact ⟨span, List.mem_of_mem_filter hspan, hle, hlt⟩

end Runs

/-! ## Evidence of clean runs -/

/-- **The evidence of a run is faithful** where each round is clean: a line that is diagnosed outside the
units shares its text with blanked units only, and an error in a global variable list for which a span is
found lies in a declaration of it. -/
theorem validate_faithful (library : Library) (excluded : Text × Text → Bool) (answers : List BuildAnswer)
    (hclean : ∀ round ∈ rounds library (exclude library excluded) (readAnswers library answers),
      Clean library round.1 round.2) :
    ∀ evidence ∈ validate library excluded answers,
      Faithful library (rounds library (exclude library excluded) (readAnswers library answers)) evidence := by
  intro evidence hevidence
  obtain ⟨s, haccepted, rfl⟩ := Option.map_eq_some_iff.1 hevidence
  refine Sound.faithful ((sound_exclude library _ excluded).acceptedState _ (fun round hmem => ?_) haccepted)
  exact ⟨hmem, hclean round hmem⟩

/-- A library of one file, with patterns that read nothing. -/
def oneFile (text : String) : Library where
  unicode := asciiData
  patterns := {
    listedNames := fun _ => []
    declaredGlobals := fun _ => []
    unknownType := fun _ => none
    dumpedNames := fun _ => []
    insertedNames := fun _ => []
    codegenKey := fun _ => [] }
  files := ["a.st".toList]
  text := fun _ => text.toList

/-- An error at a place, and then a build without errors. -/
def errorThenBuild (line column : ℕ) : List BuildAnswer :=
  let passed : CompileResult := { returncode := 0, diagnostics := [], panic := false }
  [ { check := {
        returncode := 1
        diagnostics := [{ isError := true, code := "E007".toList, file := some "a.st".toList, line, column }]
        panic := false }
      generated := passed },
    { check := passed, generated := passed, irWritten := true } ]

def listLibrary : Library :=
  oneFile "VAR_GLOBAL CONSTANT\n  a : INT;\n  b : FOO;\nEND_VAR\nFUNCTION F : INT END_FUNCTION\n"

theorem validate_faithful_listLibrary : ∃ evidence,
    validate listLibrary (fun _ => false) (errorThenBuild 3 7) = some evidence ∧
      Faithful listLibrary
        (rounds listLibrary (exclude listLibrary fun _ => false) (readAnswers listLibrary (errorThenBuild 3 7)))
        evidence := by
  have hrun : (validate listLibrary (fun _ => false) (errorThenBuild 3 7)).isSome = true ∧
      ∀ round ∈ rounds listLibrary (exclude listLibrary fun _ => false) (readAnswers listLibrary (errorThenBuild 3 7)),
        Clean listLibrary round.1 round.2 := by
    -- the kernel reads a list of characters faster than a literal
    unfold listLibrary oneFile
    rw [show String.toList "VAR_GLOBAL CONSTANT\n  a : INT;\n  b : FOO;\nEND_VAR\nFUNCTION F : INT END_FUNCTION\n" = _
      from String.toList_ofList]
    decide +kernel
  obtain ⟨evidence, hevidence⟩ := Option.isSome_iff_exists.1 hrun.1
  exact ⟨evidence, hevidence,
    validate_faithful listLibrary (fun _ => false) (errorThenBuild 3 7) hrun.2 evidence hevidence⟩

/-- A function with a word behind it in its line. -/
def junkLibrary : Library := oneFile "FUNCTION F : INT END_FUNCTION junk\n"

/-- The error at the word blanks the function, which still counts as built. -/
theorem not_faithful_junkLibrary : ¬∀ evidence ∈ validate junkLibrary (fun _ => false) (errorThenBuild 1 31),
    Faithful junkLibrary
      (rounds junkLibrary (exclude junkLibrary fun _ => false) (readAnswers junkLibrary (errorThenBuild 1 31)))
      evidence := by
  intro h
  have hevidence : (validate junkLibrary (fun _ => false) (errorThenBuild 1 31)).any fun evidence =>
      junkLibrary.unitRefs.any fun ref => evidence.status (keyOf ref) = .ok ∧
        slice ref.2.start ref.2.stop (evidence.acceptedTexts ref.1) ≠
          slice ref.2.start ref.2.stop (junkLibrary.text ref.1) := by decide +kernel
  obtain ⟨evidence, hmem, hany⟩ := (Option.any_eq_true _ _).1 hevidence
  obtain ⟨ref, href, hbad⟩ := List.any_eq_true.1 hany
  obtain ⟨hok, hne⟩ := of_decide_eq_true hbad
  exact hne ((h evidence hmem).ok ref href hok)

end SemantiST.Intake.Build
