import SemantiST.Reporting.Candidates
import SemantiST.Reporting.Deletion

/-!
# What the reducer gives

`SeedReducer.minimize`: where it ends, the seed it writes shows the failure of the first one, and its reports
say what was changed (`minimize_spec`).
-/

namespace SemantiST.Reporting

open Lib

/-! ## The whole reduction -/

structure ChangedValue where
  index : ℕ
  name : Text
  ty : Text
  before : Text
  after : Text
deriving DecidableEq

structure MinimizationResult where
  originalStatus : Text
  minimizedStatus : Text
  removedRecords : List SeedRecord
  changedValues : List ChangedValue
  replayStderrPreview : Text
  baselineStatus : Option Text
  originalSignature : Option FailureSignature
  minimizedSignature : Option FailureSignature
  signatureMatch : Bool
deriving DecidableEq

def findingStatuses : List Text := ["crash".toList, "timeout".toList, "nonzero".toList, "oom".toList]

def removedRecords (original minimized : List SeedRecord) : List SeedRecord :=
  original.filter fun record => record.originalIndex ∉ minimized.map SeedRecord.originalIndex

/-- `originals[index]` -/
def originalOf (original : List SeedRecord) (index : ℕ) : Option SeedRecord :=
  original.find? fun record => record.originalIndex = index

def changedValues (original minimized : List SeedRecord) : List ChangedValue :=
  minimized.filterMap fun record =>
    (originalOf original record.originalIndex).bind fun first =>
      if first.value ≠ record.value then
        some ⟨record.originalIndex, record.name, record.ty, first.value, record.value⟩
      else none

variable (u : CharacterData) (run : Text → ReplayOutcome)

/-- `replay_seed`; `none` is a `ValueError`. -/
def replaySeed (seed : Text) : Option ReplayOutcome := (normalizeSeed u seed).map run

/-- Whether a replay shows the expected failure. -/
def oracleOf (expected : ReplayOutcome) : Oracle := fun text => signaturesMatch expected (run text)

/-- The phases before the values are shrunk, with at most `fuel` rounds each. -/
def deleteAll (oracle : Oracle) (fuel : ℕ) (records : List SeedRecord) : Option (List SeedRecord) := do
  let records ← finish (deleteCycle u oracle) fuel records
  let records ← finish (deleteRecord u oracle true) fuel records
  finish (deleteRecord u oracle false) fuel records

/-- `minimize`, with the records that are written; `none` is an error, or a loop of more than `fuel` rounds. -/
def minimize (baselineStatus : Option Text) (fuel : ℕ) (seed : Text) :
    Option (List SeedRecord × MinimizationResult) := do
  let original ← parseSeed u seed
  let expected ← replaySeed u run (serializeSeed original)
  let expectedStatus := orText baselineStatus expected.status
  if expectedStatus ∉ findingStatuses then none
  else if expected.status ≠ expectedStatus then none
  else
    let oracle := oracleOf run expected
    let records ← deleteAll u oracle fuel original
    let shrunk ← finish (shrinkValue u oracle) fuel ⟨records, 0⟩
    let outcome ← replaySeed u run (serializeSeed shrunk.records)
    return (shrunk.records,
      { originalStatus := expected.status
        minimizedStatus := outcome.status
        removedRecords := removedRecords original shrunk.records
        changedValues := changedValues original shrunk.records
        replayStderrPreview := outcome.stderrPreview
        baselineStatus := baselineStatus
        originalSignature := expected.signature
        minimizedSignature := outcome.signature
        signatureMatch := signaturesMatch expected outcome })

/-! ## Rounds -/

section Rounds

variable {u : CharacterData} {run : Text → ReplayOutcome} {oracle : Oracle} {expected : ReplayOutcome}
  {original records current next : List SeedRecord} {s s' : Shrinking} {exact : Bool} {fuel : ℕ}

/-- A seed shows the failure it shows. -/
theorem signaturesMatch_self (expected : ReplayOutcome) : signaturesMatch expected expected = true := by
  unfold signaturesMatch
  rw [if_neg (not_not.2 rfl)]
  split
  · rename_i first second hfirst hsecond
    obtain rfl : first = second := Option.some.inj (hfirst.symm.trans hsecond)
    split
    · simp
    · split
      · simp
      · split
        · simp
        · rfl
  · rfl

/-- What no record is kept of is no seed. -/
theorem reproduces_nil : reproduces u oracle [] = none := rfl

theorem deleteRecord_next (h : deleteRecord u oracle exact current = .next next) :
    (∃ index < current.length, next = current.eraseIdx index) ∧ reproduces u oracle next = some true := by
  unfold deleteRecord at h
  obtain ⟨hmem, hok⟩ := (turnTo_next h).resolve_right fun h => nomatch h
  obtain ⟨index, hindex, rfl⟩ := List.mem_map.1 (List.mem_of_mem_filter hmem)
  rw [List.mem_filter, List.mem_reverse, List.mem_range] at hindex
  exact ⟨⟨index, hindex.1, rfl⟩, hok⟩

/-- **Where the loop over single records is left, no record can be deleted.** -/
theorem deleteRecord_done (h : deleteRecord u oracle false current = .done) {index : ℕ}
    (hindex : index < current.length) : reproduces u oracle (current.eraseIdx index) ≠ some true := by
  unfold deleteRecord at h
  by_cases hempty : current.eraseIdx index = []
  · rw [hempty, reproduces_nil]
    exact fun h => nomatch h
  · rw [turnTo_done h (current.eraseIdx index)]
    · exact fun h => nomatch h
    · rw [List.mem_filter, List.mem_map]
      refine ⟨⟨index, ?_, rfl⟩, decide_eq_true hempty⟩
      rw [List.mem_filter, List.mem_reverse, List.mem_range]
      exact ⟨hindex, rfl⟩

/-- Records of the first seed that show its failure. -/
structure Reduced (u : CharacterData) (oracle : Oracle) (original records : List SeedRecord) : Prop where
  sublist : records.Sublist original
  accepted : reproduces u oracle records = some true

theorem deleteCycle_reduced (h : Reduced u oracle original current)
    (hturn : deleteCycle u oracle current = .next next) : Reduced u oracle original next := by
  obtain ⟨cycles, -, cycle, -, rfl, -, hok⟩ := deleteCycle_next hturn
  exact ⟨List.filter_sublist.trans h.sublist, hok⟩

theorem deleteRecord_reduced (h : Reduced u oracle original current)
    (hturn : deleteRecord u oracle exact current = .next next) : Reduced u oracle original next := by
  obtain ⟨⟨index, -, rfl⟩, hok⟩ := deleteRecord_next hturn
  exact ⟨(List.eraseIdx_sublist _ _).trans h.sublist, hok⟩

/-- **The phases that delete**: what is left still shows the failure, and no single record of it can be
deleted. -/
theorem deleteAll_spec (h : reproduces u oracle original = some true)
    (hrun : deleteAll u oracle fuel original = some records) :
    Reduced u oracle original records ∧
      ∀ index < records.length, reproduces u oracle (records.eraseIdx index) ≠ some true := by
  obtain ⟨cycles, hcycles, hrun⟩ := Option.bind_eq_some_iff.1 hrun
  obtain ⟨unique, hunique, hrun⟩ := Option.bind_eq_some_iff.1 hrun
  have hstart : Reduced u oracle original original := ⟨List.Sublist.refl _, h⟩
  obtain ⟨hcycles, -⟩ := finish_invariant hcycles hstart fun _ _ => deleteCycle_reduced
  obtain ⟨hunique, -⟩ := finish_invariant hunique hcycles fun _ _ => deleteRecord_reduced
  obtain ⟨hsingle, hdone⟩ := finish_invariant hrun hunique fun _ _ => deleteRecord_reduced
  exact ⟨hsingle, fun index hindex => deleteRecord_done hdone hindex⟩

/-- What shrinking keeps of a record. -/
def keyOf (record : SeedRecord) : ℕ × Text × Text := (record.originalIndex, record.name, record.ty)

theorem shrinkValue_next (hturn : shrinkValue u oracle s = .next s') :
    s'.records.map keyOf = s.records.map keyOf ∧
      (reproduces u oracle s.records = some true → reproduces u oracle s'.records = some true) := by
  unfold shrinkValue at hturn
  split at hturn
  · cases hturn
  · split at hturn
    · cases hturn
    · cases hturn
    · rcases turnTo_next hturn with ⟨hmem, hok⟩ | hnext
      · obtain ⟨value, -, rfl⟩ := List.mem_map.1 hmem
        refine ⟨?_, fun _ => hok⟩
        rw [Shrinking.replace, List.modify_eq_take_drop]
        conv_rhs => rw [← List.take_append_drop s.index s.records]
        rw [List.map_append, List.map_append]
        cases s.records.drop s.index with
        | nil => rfl
        | cons record rest => rfl
      · cases hnext
        exact ⟨rfl, id⟩

/-- **Shrinking** keeps the records and their failure. -/
theorem shrink_spec (h : reproduces u oracle records = some true)
    (hrun : finish (shrinkValue u oracle) fuel ⟨records, 0⟩ = some s) :
    s.records.map keyOf = records.map keyOf ∧ reproduces u oracle s.records = some true := by
  have hstep (t t' : Shrinking)
      (ht : t.records.map keyOf = records.map keyOf ∧ reproduces u oracle t.records = some true)
      (hturn : shrinkValue u oracle t = .next t') :
      t'.records.map keyOf = records.map keyOf ∧ reproduces u oracle t'.records = some true := by
    obtain ⟨hkeys, hok⟩ := shrinkValue_next hturn
    exact ⟨hkeys.trans ht.1, hok ht.2⟩
  exact (finish_invariant hrun ⟨rfl, h⟩ hstep).1

end Rounds

/-! ## Reports -/

section Reports

variable {original records minimized : List SeedRecord}

/-- The records differ from those of the seed in their values only, and some are left out. -/
def Kept (original minimized : List SeedRecord) : Prop := (minimized.map keyOf).Sublist (original.map keyOf)

theorem Kept.exists_original (h : Kept original minimized) {record : SeedRecord} (hrecord : record ∈ minimized) :
    ∃ first ∈ original, keyOf first = keyOf record :=
  List.mem_map.1 (h.subset (List.mem_map_of_mem hrecord))

theorem originalOf_eq_some_iff (hindex : (original.map SeedRecord.originalIndex).Nodup) {index : ℕ}
    {first : SeedRecord} :
    originalOf original index = some first ↔ first ∈ original ∧ first.originalIndex = index := by
  unfold originalOf
  constructor
  · intro h
    exact ⟨List.mem_of_find?_eq_some h, by simpa using List.find?_some h⟩
  · rintro ⟨hfirst, rfl⟩
    obtain ⟨other, hother⟩ := Option.isSome_iff_exists.1
      (List.find?_isSome (p := fun record => decide (record.originalIndex = first.originalIndex)) |>.2
        ⟨first, hfirst, decide_eq_true rfl⟩)
    have hsame : other.originalIndex = first.originalIndex := by simpa using List.find?_some hother
    rw [hother, List.inj_on_of_nodup_map hindex (List.mem_of_find?_eq_some hother) hfirst hsame]

/-- **The report of removed records**: those whose place no record has any more. -/
theorem mem_removedRecords {record : SeedRecord} : record ∈ removedRecords original minimized ↔
    record ∈ original ∧ ∀ kept ∈ minimized, kept.originalIndex ≠ record.originalIndex := by
  rw [removedRecords, List.mem_filter, decide_eq_true_iff, List.mem_map]
  push Not
  rfl

/-- **The report of changed values**: the records that are kept with another value. -/
theorem mem_changedValues (hindex : (original.map SeedRecord.originalIndex).Nodup) (hkept : Kept original minimized)
    {change : ChangedValue} : change ∈ changedValues original minimized ↔
      ∃ first ∈ original, ∃ record ∈ minimized, keyOf first = keyOf record ∧ first.value ≠ record.value ∧
        change = ⟨first.originalIndex, first.name, first.ty, first.value, record.value⟩ := by
  rw [changedValues, List.mem_filterMap]
  constructor
  · rintro ⟨record, hrecord, h⟩
    obtain ⟨first, hfirst, h⟩ := Option.bind_eq_some_iff.1 h
    obtain ⟨hmem, hsame⟩ := (originalOf_eq_some_iff hindex).1 hfirst
    split at h
    · rename_i hne
      cases h
      obtain ⟨other, hother, hkey⟩ := hkept.exists_original hrecord
      have hplace : other.originalIndex = first.originalIndex :=
        (congrArg Prod.fst hkey).trans hsame.symm
      obtain rfl := List.inj_on_of_nodup_map hindex hother hmem hplace
      refine ⟨other, hmem, record, hrecord, hkey, hne, ?_⟩
      rw [keyOf, keyOf, Prod.mk.injEq, Prod.mk.injEq] at hkey
      rw [hkey.1, hkey.2.1, hkey.2.2]
    · cases h
  · rintro ⟨first, hfirst, record, hrecord, hkey, hne, rfl⟩
    rw [keyOf, keyOf, Prod.mk.injEq, Prod.mk.injEq] at hkey
    refine ⟨record, hrecord, ?_⟩
    rw [(originalOf_eq_some_iff hindex).2 ⟨hfirst, hkey.1⟩, Option.bind_some, if_pos hne, hkey.1, hkey.2.1,
      hkey.2.2]

/-- **The reduction is right where it ends.**  The seed that is written shows the failure of the first one; its
records are records of that in their order, with their names and types; right before the values are shrunk no
single record can be deleted; and the reports are the difference. -/
theorem minimize_spec (u : CharacterData) (run : Text → ReplayOutcome) (baselineStatus : Option Text) (fuel : ℕ)
    (seed : Text) (minimized : List SeedRecord) (result : MinimizationResult)
    (h : minimize u run baselineStatus fuel seed = some (minimized, result)) :
    ∃ original expected outcome single shrunk,
      parseSeed u seed = some original ∧ replaySeed u run (serializeSeed original) = some expected ∧
      expected.status ∈ findingStatuses ∧
      deleteAll u (oracleOf run expected) fuel original = some single ∧
      finish (shrinkValue u (oracleOf run expected)) fuel ⟨single, 0⟩ = some shrunk ∧
      shrunk.records = minimized ∧
      replaySeed u run (serializeSeed minimized) = some outcome ∧ signaturesMatch expected outcome = true ∧
      result.signatureMatch = true ∧ result.minimizedStatus = expected.status ∧
      Kept original minimized ∧ single.Sublist original ∧ Kept single minimized ∧
      (∀ index < single.length,
        reproduces u (oracleOf run expected) (single.eraseIdx index) ≠ some true) ∧
      (∀ record, record ∈ result.removedRecords ↔
        record ∈ original ∧ ∀ kept ∈ minimized, kept.originalIndex ≠ record.originalIndex) ∧
      ∀ change, change ∈ result.changedValues ↔
        ∃ first ∈ original, ∃ record ∈ minimized, keyOf first = keyOf record ∧ first.value ≠ record.value ∧
          change = ⟨first.originalIndex, first.name, first.ty, first.value, record.value⟩ := by
  unfold minimize at h
  obtain ⟨original, hparse, h⟩ := Option.bind_eq_some_iff.1 h
  obtain ⟨expected, hexpected, h⟩ := Option.bind_eq_some_iff.1 h
  dsimp only at h
  split at h
  · cases h
  · rename_i hfinding
    split at h
    · cases h
    · rename_i hstatus
      rw [not_not] at hfinding hstatus
      obtain ⟨single, hsingle, h⟩ := Option.bind_eq_some_iff.1 h
      obtain ⟨shrunk, hshrunk, h⟩ := Option.bind_eq_some_iff.1 h
      obtain ⟨outcome, houtcome, h⟩ := Option.bind_eq_some_iff.1 h
      cases h
      -- the first seed shows its own failure
      have hstart : reproduces u (oracleOf run expected) original = some true := by
        obtain ⟨text, htext, hrun⟩ := Option.map_eq_some_iff.1 hexpected
        rw [reproduces, htext, Option.map_some, oracleOf, hrun, signaturesMatch_self]
      obtain ⟨hreduced, hminimal⟩ := deleteAll_spec hstart hsingle
      obtain ⟨hkeys, hok⟩ := shrink_spec hreduced.accepted hshrunk
      have hmatch : signaturesMatch expected outcome = true := by
        obtain ⟨text, htext, hrun⟩ := Option.map_eq_some_iff.1 houtcome
        rw [reproduces, htext, Option.map_some, oracleOf, hrun] at hok
        exact Option.some.inj hok
      have hkept : Kept original shrunk.records := by
        rw [Kept, hkeys]
        exact hreduced.sublist.map keyOf
      have hindex : (original.map SeedRecord.originalIndex).Nodup := by
        rw [(parseSeed_spec hparse).2.2]
        exact List.nodup_range
      refine ⟨original, expected, outcome, single, shrunk, hparse, hexpected, hstatus ▸ hfinding, hsingle, hshrunk,
        rfl, houtcome, hmatch, hmatch, ?_, hkept, hreduced.sublist, ?_, hminimal, fun record => mem_removedRecords,
        fun change => mem_changedValues hindex hkept⟩
      · by_contra hne
        rw [signaturesMatch, if_pos hne] at hmatch
        cases hmatch
      · rw [Kept, hkeys]

/-- `tag,STRING,abc` and `note,STRING,x` -/
def taggedSeed : Text := "tag,STRING,abc\nnote,STRING,x\n".toList

/-- A replay that crashes on every seed. -/
def crashing (_ : Text) : ReplayOutcome where
  status := "crash".toList
  returncode := none

def emptiedTag : SeedRecord := ⟨"tag".toList, "STRING".toList, [], 0⟩

/-- The note is removed and the tag emptied. -/
def taggedResult : MinimizationResult where
  originalStatus := "crash".toList
  minimizedStatus := "crash".toList
  removedRecords := [⟨"note".toList, "STRING".toList, "x".toList, 1⟩]
  changedValues := [⟨0, "tag".toList, "STRING".toList, "abc".toList, []⟩]
  replayStderrPreview := []
  baselineStatus := none
  originalSignature := none
  minimizedSignature := none
  signatureMatch := true

theorem minimize_tagged :
    minimize asciiCharacters crashing none 3 taggedSeed = some ([emptiedTag], taggedResult) := by
  decide +kernel

theorem minimize_spec_tagged : ∃ original expected,
    parseSeed asciiCharacters taggedSeed = some original ∧
      replaySeed asciiCharacters crashing (serializeSeed original) = some expected ∧
      taggedResult.minimizedStatus = expected.status ∧ Kept original [emptiedTag] := by
  obtain ⟨original, expected, -, -, -, hparse, hexpected, -, -, -, -, -, -, -, hstatus, hkept, -⟩ :=
    minimize_spec asciiCharacters crashing none 3 taggedSeed [emptiedTag] taggedResult minimize_tagged
  exact ⟨original, expected, hparse, hexpected, hstatus, hkept⟩

end Reports

end SemantiST.Reporting
