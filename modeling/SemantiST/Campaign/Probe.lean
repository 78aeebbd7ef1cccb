import Mathlib.Data.List.Infix
import SemantiST.Lib.Map
import SemantiST.Lib.Python

/-!
# Probes and what they are taken for

An observation of a native probe, and `classify` (`fuzzer/pipeline/probe.py`), which names the first
justified candidate in it.
-/

namespace SemantiST.Campaign

open Lib

/-! ## Observations -/

/-- What a probe observes: `hits` are the cycles in which each runtime id was hit. -/
structure Observation where
  timedOut : Bool
  stderr : Text
  hits : Std.ExtTreeMap ℕ (List ℤ) compare := ∅
  lastCycle : Option ℤ := none
  crashed : Bool := false
  scanBudget : Bool := false
  signalName : Option Text := none
deriving DecidableEq

/-! ## The runtime index -/

/-- A source span as it is written in the index: the JSON text of each entry. -/
abbrev Source := Std.ExtTreeMap Text Text compare

structure ViolationPredicate where
  kind : Option Text := none
  targetBitWidth : Option ℕ := none
  signed : Option Bool := none

structure RuntimeEntry where
  kind : Option Text
  hazard : Option Text := none
  modeling : Option Text := none
  violationPredicate : ViolationPredicate := {}
  platformPointerNarrowing : Bool := false
  source : Option Source := none

abbrev RuntimeIndex := Std.ExtTreeMap ℕ RuntimeEntry compare

/-- A conversion whose violation the probe observes. -/
def RuntimeEntry.observedConversion (entry : RuntimeEntry) : Bool :=
  entry.hazard = some "dangerous_conversion".toList &&
    ((entry.violationPredicate.kind = some "float_to_integer".toList &&
        entry.violationPredicate.targetBitWidth ∈ [some 8, some 16, some 32, some 64] &&
        entry.violationPredicate.signed.isSome) ||
      (entry.violationPredicate.kind = some "narrowing".toList && entry.platformPointerNarrowing))

/-- The violation of a hazard that counts without further proof. -/
def RuntimeEntry.justified (entry : RuntimeEntry) : Bool :=
  entry.kind = some "hazard_violation".toList &&
    (entry.modeling = some "exact".toList || entry.observedConversion)

/-! ## Candidates -/

inductive Kind where
  | hazardViolation | scanBudget | crash
deriving DecidableEq

/-- What an observation is taken for. -/
structure Info where
  oracle : Text
  hazard : Text
  runtimeId : Option ℕ := none
  cycle : Option ℤ := none
  source : Option Source := none
  kind : Kind
  diagnostic : Option Text := none
  modeling : Option Text := none
  observedPredicate : Option Text := none
deriving DecidableEq

def oracleForHazard (hazard : Text) : Text :=
  if hazard = "array_access".toList then "array_access".toList
  else if hazard = "pointer_access".toList then "null_dereference".toList
  else if hazard = "division".toList ∨ hazard = "modulo".toList then "division_by_zero".toList
  else if hazard = "dangerous_conversion".toList then "conversion_out_of_range".toList
  else "crash".toList

def hazardInfo (runtimeId : ℕ) (cycles : List ℤ) (entry : RuntimeEntry) : Info :=
  let hazard := (entry.hazard.filter (· ≠ [])).getD "semantic_violation".toList
  { oracle := oracleForHazard hazard
    hazard
    runtimeId := some runtimeId
    cycle := cycles.getLast?
    source := entry.source
    kind := .hazardViolation
    modeling := entry.modeling
    observedPredicate := if entry.observedConversion then entry.violationPredicate.kind else none }

def scanBudgetInfo : Info where
  oracle := "scan_budget".toList
  hazard := "scan_budget".toList
  kind := .scanBudget
  diagnostic := some "semantist-scan-budget-exceeded".toList

def crashOracle (observation : Observation) : Text :=
  let mentions (part : String) : Bool := part.toList <:+: observation.stderr
  if mentions "division by zero" || mentions "FPE" || observation.signalName = some "SIGFPE".toList then
    "division_by_zero".toList
  else if mentions "out of bounds" || mentions "buffer-overflow" || mentions "bounds" then
    "array_access".toList
  else if mentions "null" && mentions "pointer" then "null_dereference".toList
  else "crash".toList

/-- The first line of what a crash prints, or else its signal. -/
def crashDiagnostic (observation : Observation) : Option Text :=
  if observation.stderr ≠ [] then (splitlines observation.stderr).head? else observation.signalName

def crashInfo (observation : Observation) : Info where
  oracle := crashOracle observation
  hazard := crashOracle observation
  cycle := observation.lastCycle
  kind := .crash
  diagnostic := crashDiagnostic observation

/-- The first hit that is a justified violation, in the order of the runtime ids. -/
def firstHazard (index : RuntimeIndex) (hits : List (ℕ × List ℤ)) : Option Info :=
  hits.findSome? fun (runtimeId, cycles) =>
    (index[runtimeId]?.filter RuntimeEntry.justified).map (hazardInfo runtimeId cycles)

def classify (observation : Observation) (index : RuntimeIndex) : Option Info :=
  if observation.timedOut then none
  else
    match firstHazard index observation.hits.toList with
    | some info => some info
    | none =>
      if observation.scanBudget then some scanBudgetInfo
      else if observation.crashed then some (crashInfo observation)
      else none

end SemantiST.Campaign
