import Mathlib.Data.Char
import Mathlib.Data.List.Lex
import SemantiST.Lib.Dict
import SemantiST.Lib.Python
import SemantiST.Lib.Replace
import SemantiST.Lib.Sort

/-!
# Findings

`FindingDeduplicator` (`reporting/findings.py`): raw findings are grouped by the key of their signature;
the groups are written to a directory, one file each, and read again.
-/

namespace SemantiST.Reporting

open Lib

/-! ## Signatures -/

inductive Tier where
  | semantic | runtime | fallback
deriving DecidableEq

structure FindingSignature where
  function : Text
  kind : Text
  tier : Tier
  semanticTargetId : Option Text := none
  hazardKind : Option Text := none
  sourceLocation : Option Text := none
  exitKind : Option Text := none
  stackHash : Option Text := none
  targetKind : Option Text := none
  cycleCount : Option ℤ := none
  seedContentHash : Option Text := none
deriving DecidableEq

/-- The truth of a text that may be missing. -/
def given (text : Option Text) : Bool := text.any (· ≠ [])

/-- `text or other` -/
def orElse (text other : Option Text) : Option Text := if given text then text else other

/-- `text or default` -/
def orText (text : Option Text) (default : Text) : Text := if given text then text.getD [] else default

def joinKey (parts : List Text) : Text := "::".toList.intercalate parts

/-- `FindingSignature.key` -/
def FindingSignature.key (signature : FindingSignature) : Text :=
  let unknown := "?".toList
  match signature.tier with
  | .semantic =>
    joinKey ["semantic".toList, signature.function, orText signature.semanticTargetId unknown,
      orText signature.hazardKind unknown]
  | .runtime =>
    joinKey ["runtime".toList, signature.function, orText signature.exitKind signature.kind,
      orText (orElse signature.stackHash signature.sourceLocation) unknown]
  | .fallback =>
    joinKey ["fallback".toList, signature.function, orText signature.exitKind signature.kind,
      orText signature.targetKind unknown, (signature.cycleCount.map intText).getD unknown]

/-- The arguments of `add`; evidence is a map of JSON texts. -/
structure RawFinding where
  function : Text
  kind : Text
  reproducerPath : Option Text := none
  semanticTargetId : Option Text := none
  hazardKind : Option Text := none
  sourceLocation : Option Text := none
  exitKind : Option Text := none
  stackHash : Option Text := none
  targetKind : Option Text := none
  cycleCount : Option ℤ := none
  semanticEvidence : Option (List (Text × Text)) := none
  replayStatus : Text := "unchecked".toList
  replayReturncode : Option ℤ := none
  replayStderrPreview : Text := []
  now : Text := []

/-- `build_signature` -/
def buildSignature (finding : RawFinding) : FindingSignature :=
  if given finding.semanticTargetId || given finding.hazardKind then {
    function := finding.function
    kind := finding.kind
    tier := .semantic
    semanticTargetId := finding.semanticTargetId
    hazardKind := finding.hazardKind
    sourceLocation := finding.sourceLocation }
  else if given finding.stackHash || given finding.sourceLocation then {
    function := finding.function
    kind := finding.kind
    tier := .runtime
    exitKind := some (orText finding.exitKind finding.kind)
    stackHash := finding.stackHash
    sourceLocation := finding.sourceLocation
    targetKind := finding.targetKind
    cycleCount := finding.cycleCount }
  else {
    function := finding.function
    kind := finding.kind
    tier := .fallback
    exitKind := some (orText finding.exitKind finding.kind)
    targetKind := finding.targetKind
    cycleCount := finding.cycleCount }

/-! ## Records -/

structure FindingRecord where
  signature : FindingSignature
  errorKind : Text
  function : Text
  representativeSeeds : List Text := []
  duplicateCount : ℕ := 0
  firstSeen : Text := []
  lastSeen : Text := []
  replayStatus : Text := "unchecked".toList
  replayReturncode : Option ℤ := none
  replayStderrPreview : Text := []
  semanticEvidence : List (Text × Text) := []
  sourceLocation : Option Text := none
  crashOrigin : List (Text × Text) := []
deriving DecidableEq

structure SignatureDetail where
  tier : Tier
  kind : Text
  semanticTargetId : Option Text
  hazardKind : Option Text
  sourceLocation : Option Text
  exitKind : Option Text
  stackHash : Option Text
  targetKind : Option Text
  cycleCount : Option ℤ
  seedContentHash : Option Text
deriving DecidableEq

/-- What a record file holds. -/
structure RecordJson where
  schemaVersion : Text
  errorKind : Text
  function : Text
  signature : Text
  signatureDetail : SignatureDetail
  representativeSeeds : List Text
  duplicateCount : ℕ
  firstSeen : Text
  lastSeen : Text
  replayStatus : Text
  replayReturncode : Option ℤ
  replayStderrPreview : Text
  semanticEvidence : List (Text × Text)
  sourceLocation : Option Text
  crashOrigin : List (Text × Text)
deriving DecidableEq

def recordVersion : Text := "finding-record-1.0".toList

namespace FindingRecord

/-- `FindingRecord.to_json` -/
def toJson (record : FindingRecord) : RecordJson where
  schemaVersion := recordVersion
  errorKind := record.errorKind
  function := record.function
  signature := record.signature.key
  signatureDetail := {
    tier := record.signature.tier
    kind := record.signature.kind
    semanticTargetId := record.signature.semanticTargetId
    hazardKind := record.signature.hazardKind
    sourceLocation := record.signature.sourceLocation
    exitKind := record.signature.exitKind
    stackHash := record.signature.stackHash
    targetKind := record.signature.targetKind
    cycleCount := record.signature.cycleCount
    seedContentHash := record.signature.seedContentHash }
  representativeSeeds := record.representativeSeeds
  duplicateCount := record.duplicateCount
  firstSeen := record.firstSeen
  lastSeen := record.lastSeen
  replayStatus := record.replayStatus
  replayReturncode := record.replayReturncode
  replayStderrPreview := record.replayStderrPreview.take 2000
  semanticEvidence := record.semanticEvidence
  sourceLocation := record.sourceLocation
  crashOrigin := record.crashOrigin

/-- `FindingRecord.from_json` -/
def fromJson (data : RecordJson) : FindingRecord where
  signature := {
    function := data.function
    kind := data.errorKind
    tier := data.signatureDetail.tier
    semanticTargetId := data.signatureDetail.semanticTargetId
    hazardKind := data.signatureDetail.hazardKind
    sourceLocation := orElse data.signatureDetail.sourceLocation data.sourceLocation
    exitKind := data.signatureDetail.exitKind
    stackHash := data.signatureDetail.stackHash
    targetKind := data.signatureDetail.targetKind
    cycleCount := data.signatureDetail.cycleCount
    seedContentHash := data.signatureDetail.seedContentHash }
  errorKind := data.errorKind
  function := data.function
  representativeSeeds := data.representativeSeeds
  duplicateCount := data.duplicateCount
  firstSeen := data.firstSeen
  lastSeen := data.lastSeen
  replayStatus := data.replayStatus
  replayReturncode := data.replayReturncode
  replayStderrPreview := data.replayStderrPreview
  semanticEvidence := data.semanticEvidence
  sourceLocation := data.sourceLocation
  crashOrigin := data.crashOrigin

end FindingRecord

/-! ## The deduplicator -/

def maxRepresentativeSeeds : ℕ := 3

/-- `_replay_rank` -/
def replayRank (status : Text) : ℕ :=
  if status = "confirmed".toList then 3
  else if status = "unstable".toList then 2
  else if status = "candidate".toList then 1
  else 0

structure FindingDeduplicator where
  records : List (Text × FindingRecord) := []
  rawCount : ℕ := 0
deriving DecidableEq

namespace RawFinding

variable (finding : RawFinding)

def key : Text := (buildSignature finding).key

/-- `reproducer_display` -/
def reproducer : Text := finding.reproducerPath.getD []

/-- The record of a group that the finding starts. -/
def record : FindingRecord where
  signature := buildSignature finding
  errorKind := finding.kind
  function := finding.function
  representativeSeeds := if finding.reproducer ≠ [] then [finding.reproducer] else []
  firstSeen := finding.now
  lastSeen := finding.now
  replayStatus := finding.replayStatus
  replayReturncode := finding.replayReturncode
  replayStderrPreview := finding.replayStderrPreview
  semanticEvidence := finding.semanticEvidence.getD []
  sourceLocation := finding.sourceLocation

/-- The record of a group that the finding belongs to. -/
def duplicate (record : FindingRecord) : FindingRecord :=
  let seeds := record.representativeSeeds
  let better := replayRank record.replayStatus < replayRank finding.replayStatus
  { record with
    duplicateCount := record.duplicateCount + 1
    lastSeen := finding.now
    representativeSeeds :=
      if finding.reproducer ≠ [] ∧ seeds.length < maxRepresentativeSeeds ∧ finding.reproducer ∉ seeds then
        seeds ++ [finding.reproducer]
      else seeds
    replayStatus := if better then finding.replayStatus else record.replayStatus
    replayReturncode := if better then finding.replayReturncode else record.replayReturncode
    replayStderrPreview := if better then finding.replayStderrPreview else record.replayStderrPreview }

end RawFinding

namespace FindingDeduplicator

/-- `add` -/
def add (dedup : FindingDeduplicator) (finding : RawFinding) : FindingDeduplicator :=
  let record :=
    match value dedup.records finding.key with
    | some record => finding.duplicate record
    | none => finding.record
  { records := put dedup.records finding.key record, rawCount := dedup.rawCount + 1 }

/-- A file of a directory, read after those before it. -/
def loadFile (dedup : FindingDeduplicator) (file : Text × RecordJson) : FindingDeduplicator :=
  let record := FindingRecord.fromJson file.2
  if file.2.schemaVersion ≠ recordVersion ∨ record.signature.key ∈ dedup.records.map Prod.fst then dedup
  else {
    records := put dedup.records record.signature.key record
    rawCount := dedup.rawCount + (record.duplicateCount + 1) }

/-- `load_legacy_records`: the files of a directory, sorted by their names. -/
def loadLegacyRecords (dedup : FindingDeduplicator) (files : List (Text × RecordJson)) : FindingDeduplicator :=
  (sortBy (fun a b => compare a.1 b.1) files).foldl loadFile dedup

/-- The name of the file of a record. -/
def fileName (key : Text) : Text :=
  (replaceAll "/".toList "_".toList (replaceAll "::".toList "__".toList key)).take 160 ++ ".json".toList

/-- `persist` to an empty directory, which takes some names of files only. -/
def persist (takes : Text → Bool) (dedup : FindingDeduplicator) : Option (List (Text × RecordJson)) :=
  dedup.records.foldlM (fun files entry =>
    let name := fileName entry.2.signature.key
    if takes name then some (put files name entry.2.toJson) else none) []

/-- The deduplicator after a sequence of calls. -/
def addAll (findings : List RawFinding) : FindingDeduplicator := findings.foldl add {}

end FindingDeduplicator

end SemantiST.Reporting
