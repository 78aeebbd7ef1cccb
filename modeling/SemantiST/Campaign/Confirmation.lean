import SemantiST.Campaign.Minimize

/-!
# Confirming candidates

The part of a campaign (`fuzzer/pipeline/campaign.py`) that files what probes find as candidates,
shortens their testcases and confirms them by three more probes, tried twice.
-/

namespace SemantiST.Campaign

open Lib Corpus

/-! ## Candidates -/

/-- An entry of a source span, unless it is null. -/
def sourceField (source : Option Source) (key : String) : Option Text :=
  (source.bind fun entries => entries[key.toList]?).filter (· ≠ "null".toList)

/-- Under which a candidate is filed. -/
def Info.signature (info : Info) : Text × Option ℕ × Option Text × Option Text × Option Text :=
  (info.oracle, info.runtimeId, sourceField info.source "file", sourceField info.source "start_offset",
    if info.kind = .crash then info.diagnostic else none)

structure Candidate where
  findingId : ℕ
  testcase : Text
  observation : Observation
  info : Info

/-- `_register_candidate`: the first candidate of a signature stays. -/
def registerCandidate (candidates : List Candidate) (testcase : Text) (observation : Observation)
    (info : Info) : List Candidate :=
  if candidates.any fun existing => existing.info.signature = info.signature then candidates
  else candidates ++ [{ findingId := candidates.length + 1, testcase, observation, info }]

/-- `_candidate_key`, which confirmation compares. -/
def Info.candidateKey (info : Info) : Text × Option ℕ × Option Source :=
  (info.oracle, info.runtimeId, info.source.filter fun entries => !entries.isEmpty)

def sameCandidate (first : Info) (second : Option Info) : Bool :=
  match second with
  | none => false
  | some second => first.candidateKey == second.candidateKey

/-! ## Findings -/

inductive InputValidity where
  | satisfiesConfirmed | violatesContract
deriving DecidableEq

inductive Cause where
  | source | undetermined | harness | runtime
deriving DecidableEq

inductive Nature where
  | memoryOrBounds | arithmeticOrConversion | scanBudget | crash
deriving DecidableEq

inductive HistoryEvidence where
  | historyDependent | singleCycle | undetermined
deriving DecidableEq

/-- A confirmed candidate, with the testcase that is stored for it. -/
structure Finding where
  findingId : ℕ
  oracle : Text
  runtimeId : Option ℕ
  source : Option Source
  inputValidity : InputValidity
  causeLocation : Cause
  causeEvidence : Text
  nature : Nature
  historyEvidence : HistoryEvidence
  testcase : Text
deriving DecidableEq

def Info.hasSource (info : Info) : Bool := info.source.any fun entries => !entries.isEmpty

def Info.causeLocation (info : Info) : Cause :=
  if info.hasSource then .source
  else if info.kind = .crash then
    if "semantist".toList <:+: (info.diagnostic.getD []).map Char.toLower then .harness else .runtime
  else .undetermined

def Info.causeEvidence (info : Info) : Text :=
  match info.diagnostic.filter (· ≠ []), info.observedPredicate.filter (· ≠ []) with
  | some diagnostic, _ => diagnostic
  | none, some predicate => "native typed predicate: ".toList ++ predicate
  | none, none => "runtime semantic probe".toList

def natureOf (oracle : Text) : Nature :=
  if oracle = "array_access".toList ∨ oracle = "null_dereference".toList then .memoryOrBounds
  else if oracle = "conversion_out_of_range".toList ∨ oracle = "division_by_zero".toList then
    .arithmeticOrConversion
  else if oracle = "scan_budget".toList then .scanBudget
  else .crash

variable (u : UnicodeData) (abi : TargetAbi) (index : RuntimeIndex)

/-- `confirm`: all three observations are taken for the candidate. -/
def confirm (candidate : Candidate) (observations : List Observation) : Option Finding :=
  if (observations.countP fun observation =>
      sameCandidate candidate.info (classify observation index)) < 3 then none
  else
    let parsed :=
      match parse u abi candidate.testcase with
      | .error _ => none
      | .ok parsed =>
        match validate u parsed abi with
        | .error _ => none
        | .ok _ => some parsed
    some {
      findingId := candidate.findingId
      oracle := candidate.info.oracle
      runtimeId := candidate.info.runtimeId
      source := candidate.info.source
      inputValidity := if parsed.isSome then .satisfiesConfirmed else .violatesContract
      causeLocation := candidate.info.causeLocation
      causeEvidence := candidate.info.causeEvidence
      nature := natureOf candidate.info.oracle
      historyEvidence :=
        match parsed with
        | none => .undetermined
        | some parsed => if 1 < parsed.frames.length then .historyDependent else .singleCycle
      testcase := candidate.testcase }

/-! ## A round of confirmation -/

structure CampaignState where
  candidates : List Candidate
  confirmed : List Finding

/-- What became of a candidate: the rounds of probes of its testcase, and the finding. -/
structure Outcome where
  candidate : Candidate
  rounds : List (List Observation)
  finding : Option Finding

variable (world : World)

/-- A shorter testcase for a candidate, where one is found in time. -/
def shorten (candidate : Candidate) : StateM Log Candidate := do
  match parse u abi candidate.testcase with
  | .error _ => return candidate
  | .ok parsed =>
    if 1 < parsed.frames.length then
      if ← look world then
        match ← (minimize u abi world index candidate.info.minimizeSignature candidate.testcase 1).run with
        | .error _ => return candidate
        | .ok result =>
          if result.frames < parsed.frames.length then
            return { candidate with testcase := result.testcase }
          else return candidate
      else return candidate
    else return candidate

def threeProbes (testcase : Text) : StateM Log (List Observation) := do
  let first ← probeWithDeadline world testcase
  let second ← probeWithDeadline world testcase
  let third ← probeWithDeadline world testcase
  return [first, second, third]

/-- The first round, and another one where it does not confirm and time is left. -/
def confirmOrRetry (candidate : Candidate) (observations : List Observation) : StateM Log Outcome := do
  match confirm u abi index candidate observations with
  | some finding => return { candidate, rounds := [observations], finding := some finding }
  | none =>
    if ← look world then
      let retry ← threeProbes world candidate.testcase
      return { candidate, rounds := [observations, retry], finding := confirm u abi index candidate retry }
    else return { candidate, rounds := [observations], finding := none }

/-- `_run_confirmation` over the candidates that are not confirmed yet. -/
def runConfirmation (campaign : CampaignState) : StateM Log (CampaignState × List Outcome) := do
  let isConfirmed := fun candidate : Candidate =>
    campaign.confirmed.any fun finding => finding.findingId = candidate.findingId
  let candidates ← campaign.candidates.mapM fun candidate =>
    if isConfirmed candidate then pure candidate else shorten u abi index world candidate
  let pending := candidates.filter fun candidate => !isConfirmed candidate
  let observations ← pending.mapM fun candidate => threeProbes world candidate.testcase
  let outcomes ← (pending.zip observations).mapM fun entry =>
    confirmOrRetry u abi index world entry.1 entry.2
  return ({ candidates, confirmed := campaign.confirmed ++ outcomes.filterMap Outcome.finding }, outcomes)

/-- The campaigns that filing and confirming lead to. -/
inductive Reached : CampaignState → Prop where
  | start : Reached { candidates := [], confirmed := [] }
  | register {campaign : CampaignState} (h : Reached campaign) (testcase : Text) (observation : Observation)
      {info : Info} (hinfo : classify observation index = some info) :
      Reached { campaign with candidates := registerCandidate campaign.candidates testcase observation info }
  | confirm {campaign : CampaignState} (h : Reached campaign) (world : World) (log : Log) :
      Reached ((runConfirmation u abi index world campaign).run log).1.1

end SemantiST.Campaign
