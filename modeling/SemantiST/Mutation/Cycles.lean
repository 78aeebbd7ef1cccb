import SemantiST.Lib.Loop
import SemantiST.Lib.Map
import SemantiST.Mutation.Records

/-!
# Mutations of cycles

Seeds whose records belong to cycles, and the mutators that work on the sequence of cycles
(`fuzzer/engine/src/mutations.rs`).
-/

namespace SemantiST.Mutation

open Lib Lib.Drawn Semantic

/-! ## Seeds -/

abbrev CycleMap := Std.ExtTreeMap ℕ (List StRecord) compare

structure CycleAwareSeed where
  shared : List StRecord := []
  cycles : CycleMap := ∅

/-- The name, the type and the value of a line. -/
def structuredRecordFields (line : Text) : Option (Text × Text × Text) :=
  (splitOnce ',' line).bind fun (name, rest) =>
    let (ty, value) := (splitOnce ',' rest).getD (rest, [])
    let name := trim isWhitespace name
    let ty := trim isWhitespace ty
    if name.isEmpty || ty.isEmpty then none else some (name, ty, trim isWhitespace value)

/-- A line adds its record to its cycle, or to the shared ones. -/
def CycleAwareSeed.addRecord (seed : CycleAwareSeed) (fields : Text × Text × Text) : CycleAwareSeed :=
  let (name, ty, value) := fields
  match splitCyclePrefix name with
  | some (cycle, field) =>
    let record : StRecord := ⟨field, toAsciiUppercase ty, value⟩
    { seed with cycles := seed.cycles.insert cycle (seed.cycles[cycle]?.getD [] ++ [record]) }
  | none => { seed with shared := seed.shared ++ [⟨name, toAsciiUppercase ty, value⟩] }

def parseCycleAwareSeed (text : Text) : CycleAwareSeed :=
  ((lines text).filterMap structuredRecordFields).foldl CycleAwareSeed.addRecord {}

def recordLine (cycle : Option ℕ) (record : StRecord) : Text :=
  (cycle.elim [] fun cycle => decimal cycle ++ ['.']) ++ record.name ++ ',' :: (record.ty ++ ',' :: record.value)

def serializeCycleAwareSeed (seed : CycleAwareSeed) : Text :=
  unlines (seed.shared.map (recordLine none) ++
    seed.cycles.toList.flatMap fun (cycle, records) => records.map (recordLine (some cycle)))

/-! ## Limits -/

def defaultFbMaxCycles : ℕ := 256
def hardFbMaxCycles : ℕ := 10000

/-- The number of cycles at most, from the environment. -/
def parseFbMaxCycles (value : Option Text) : ℕ :=
  min (((value.bind fun value => parseUnsigned u64Max (trim isWhitespace value)).filter (0 < ·)).getD defaultFbMaxCycles)
    hardFbMaxCycles

/-- The record of a seed that has none. -/
def defaultRecord : StRecord := ⟨"IN".toList, "INT".toList, "0".toList⟩

/-- The records of the last cycle. -/
def lastRecords (cycles : CycleMap) : List StRecord := (cycles.maxKey?.bind fun id => cycles[id]?).getD []

/-- The number after the last one, with the wrapping addition of a `usize`. -/
def nextId (cycles : CycleMap) : ℕ := (cycles.maxKey?.getD 0 + 1) % (u64Max + 1)

/-! ## Operators -/

/-- Cycles numbered from zero on. -/
def numbered (cycles : List (List StRecord)) : CycleMap :=
  insertAll ∅ (cycles.zipIdx.map fun (records, id) => (id, records))

def cycleLists (cycles : CycleMap) : List (List StRecord) := cycles.toList.map Prod.snd

def normalizeCycleIds (seed : CycleAwareSeed) : CycleAwareSeed :=
  { seed with cycles := numbered (cycleLists seed.cycles) }

/-- One record gets a random value. -/
def mutateRecordAt (records : List StRecord) (index : ℕ) : Drawn (List StRecord) :=
  match records[index]? with
  | none => pure records
  | some record => records.set index <$> mutateRecord record

/-- The cycle and the place in it of a record, counted over all cycles. -/
def locate : List (ℕ × List StRecord) → ℕ → Option (ℕ × ℕ)
  | [], _ => none
  | (id, records) :: rest, index =>
    if index < records.length then some (id, index) else locate rest (index - records.length)

def cycleMutateValue (seed : CycleAwareSeed) : Drawn CycleAwareSeed := do
  let total := seed.shared.length + ((cycleLists seed.cycles).map List.length).sum
  if total = 0 then pure seed
  else do
    let index ← belowOrZero total
    if index < seed.shared.length then
      (fun shared => { seed with shared }) <$> mutateRecordAt seed.shared index
    else
      match locate seed.cycles.toList (index - seed.shared.length) with
      | none => pure seed
      | some (id, place) =>
        (fun records => { seed with cycles := seed.cycles.insert id records }) <$>
          mutateRecordAt (seed.cycles[id]?.getD []) place

def cycleCloneCycle (maxCycles : ℕ) (seed : CycleAwareSeed) : Drawn CycleAwareSeed :=
  if maxCycles ≤ seed.cycles.size then pure seed
  else if seed.cycles.keys.isEmpty then pure seed
  else do
    let source ← choose 0 seed.cycles.keys
    let records := seed.cycles[source]?.getD []
    let place ← belowOrZero records.length
    let cloned ← mutateRecordAt records place
    pure { seed with cycles := seed.cycles.insert (nextId seed.cycles) cloned }

def cycleDeleteCycle (seed : CycleAwareSeed) : Drawn CycleAwareSeed :=
  if seed.cycles.size ≤ 1 then pure seed
  else (fun id => { seed with cycles := seed.cycles.erase id }) <$> choose 0 seed.cycles.keys

/-- The name is one of these words. -/
def isLike (words : List Text) (name : Text) : Bool := toAsciiUppercase name ∈ words

def isResetLike (name : Text) : Bool :=
  isLike ["RST".toList, "RESET".toList, "INIT".toList, "CLR".toList, "CLEAR".toList] name ||
    decide ("RESET".toList <:+: toAsciiUppercase name)

def isEnableLike (name : Text) : Bool :=
  isLike ["E".toList, "EN".toList, "ENA".toList, "ENABLE".toList, "RUN".toList] name

def isReadLike (name : Text) : Bool := isLike ["RD".toList, "READ".toList, "R".toList] name

def isWriteLike (name : Text) : Bool := isLike ["WD".toList, "WR".toList, "WRITE".toList, "W".toList] name

/-- A record of type BOOL gets a value, where there is one for its name. -/
def setBool (value : Text → Option Bool) (record : StRecord) : StRecord :=
  if record.ty = "BOOL".toList then
    match value record.name with
    | some one => { record with value := if one then "1".toList else "0".toList }
    | none => record
  else record

def cycleInsertCycle (maxCycles : ℕ) (seed : CycleAwareSeed) : Drawn CycleAwareSeed :=
  if maxCycles ≤ seed.cycles.size then pure seed
  else do
    let copied ← if seed.cycles.keys.isEmpty then pure seed.shared
      else (fun source => seed.cycles[source]?.getD []) <$> choose 0 seed.cycles.keys
    let records := if copied.isEmpty then [defaultRecord] else copied
    let reset := records.map (setBool fun name => if isResetLike name then some false else none)
    pure { seed with cycles := seed.cycles.insert (nextId seed.cycles) reset }

def cycleResetLikeCycle (seed : CycleAwareSeed) : Drawn CycleAwareSeed :=
  if seed.cycles.keys.isEmpty then pure seed
  else (fun id => { seed with cycles := seed.cycles.insert id ((seed.cycles[id]?.getD []).map (setBool fun name =>
      if isResetLike name then some true
      else if isEnableLike name || isReadLike name || isWriteLike name then some false
      else none)) }) <$> choose 0 seed.cycles.keys

/-- Every record of type BOOL gets a value by its name and by the place of its cycle. -/
def setBools (seed : CycleAwareSeed) (value : ℕ → Text → Option Bool) : CycleAwareSeed :=
  { seed with cycles := seed.cycles.map fun id records => records.map (setBool (value (seed.cycles.keys.idxOf id))) }

def cycleEnableToggle (seed : CycleAwareSeed) : CycleAwareSeed :=
  setBools seed fun place name => if isEnableLike name then some (place % 2 = 0) else none

def cycleReadWritePattern (seed : CycleAwareSeed) : CycleAwareSeed :=
  setBools seed fun place name =>
    if isWriteLike name then some (place % 4 = 1 ∨ place % 4 = 2)
    else if isReadLike name then some (place % 4 = 3)
    else if isResetLike name then some (place = 0)
    else if isEnableLike name then some true
    else none

/-- The operator with a number. -/
def cycleOperator (maxCycles : ℕ) (seed : CycleAwareSeed) : ℕ → Drawn CycleAwareSeed
  | 0 => cycleMutateValue seed
  | 1 => cycleCloneCycle maxCycles seed
  | 2 => cycleDeleteCycle seed
  | 3 => cycleInsertCycle maxCycles seed
  | 4 => cycleResetLikeCycle seed
  | 5 => pure (cycleEnableToggle seed)
  | 6 => pure (cycleReadWritePattern seed)
  | _ => pure (normalizeCycleIds seed)

def mutateCycleAwareSeed (maxCycles : ℕ) (seed : CycleAwareSeed) : Drawn CycleAwareSeed := do
  let operator ← belowOrZero 8
  let mutated ← cycleOperator maxCycles seed operator
  pure (normalizeCycleIds mutated)

/-! ## Extension -/

/-- A seed with a cycle. -/
def baseCycles (seed : CycleAwareSeed) : CycleAwareSeed :=
  if seed.cycles.size = 0 then
    { seed with cycles := seed.cycles.insert 0 (if seed.shared.isEmpty then [defaultRecord] else seed.shared) }
  else seed

/-- One round of the loop that adds cycles. -/
def extendStep (desired : ℕ) (seed : CycleAwareSeed) : Option CycleAwareSeed :=
  if seed.cycles.size < desired then
    some { seed with cycles := seed.cycles.insert (nextId seed.cycles) (lastRecords seed.cycles) }
  else none

/-- `ensure_cycle_hint`, where its loop is left within a number of rounds. -/
def ensureCycleHint (maxCycles rounds : ℕ) (seed : CycleAwareSeed) (desired : ℕ) : Option CycleAwareSeed :=
  loopWithin (extendStep (min (max desired 1) maxCycles)) rounds (baseCycles seed)

/-! ## Guided mutations -/

/-- What the ablation leaves on. -/
structure SemantiSTAblation where
  targetedMutation : Bool := true
  prefixGrowth : Bool := true
  transitionGuidance : Bool := true

/-- A second attempt, where the first one changed nothing. -/
def attempt {α : Type} (first second : Drawn (Option α)) : Drawn (Option α) := do
  match ← first with
  | some changed => pure (some changed)
  | none => second

def expandStatePrefix (maxCycles : ℕ) (seed : CycleAwareSeed) : Drawn (Option CycleAwareSeed) :=
  if seed.cycles.size < 2 ∨ maxCycles ≤ seed.cycles.size then pure none
  else do
    let cycles := cycleLists seed.cycles
    let source ← belowOrZero (cycles.length - 1)
    pure (some { seed with cycles := numbered (cycles.insertIdx (source + 1) (cycles.getD source [])) })

def mutateTransitionPrefix (seed : CycleAwareSeed) (transferFields : List (List ControllableSeedField)) :
    Drawn (Option CycleAwareSeed) :=
  if seed.cycles.size < 2 ∨ transferFields.isEmpty then pure none
  else do
    let transfer ← choose [] transferFields
    let place ← belowOrZero (seed.cycles.size - 1)
    match seed.cycles.toList[place]? with
    | none => pure none
    | some (id, records) =>
      (Option.map fun records => { seed with cycles := seed.cycles.insert id records }) <$>
        mutateControllableSeedField records transfer

section Guided

variable {F : Type} (fl : Floats F) (maxCycles : ℕ) (seed : CycleAwareSeed) (context : TargetContext)
  (ablation : SemantiSTAblation)

/-- The terminal predicate, on the last cycle. -/
def mutateTerminal : Drawn (Option CycleAwareSeed) :=
  match seed.cycles.toList.getLast? with
  | none => pure none
  | some (id, records) =>
    let goal : Option (List StRecord) := context.goalExpression.bind fun expression =>
      let (edited, changed) := mutateExpressionGoal fl context.valueDefinitions records expression true 0
      if changed then some edited else none
    (Option.map fun records => normalizeCycleIds { seed with cycles := seed.cycles.insert id records }) <$>
      attempt (mutateHazardGoal records context) (pure goal)

/-- One random operation on the sequence. -/
def mutateSequence : Drawn (Option CycleAwareSeed) :=
  let cycles := cycleLists seed.cycles
  if context.semanticTaskId.isNone ∨ cycles.isEmpty then pure none
  else do
    let minimumCycles := max (context.cycleHint.getD 1) 1
    let operation ← belowOrZero 4
    let selected ← belowOrZero cycles.length
    let records := cycles.getD selected []
    let changed ←
      if operation = 1 ∧ cycles.length < maxCycles then pure (some (cycles.insertIdx (selected + 1) records))
      else if operation = 2 ∧ cycles.length < maxCycles then pure (some (cycles ++ [records]))
      else if operation = 3 ∧ minimumCycles < cycles.length then pure (some (cycles.eraseIdx selected))
      else (Option.map (cycles.set selected)) <$>
        mutateControllableSeedField records context.controllableSeedFields
    pure (changed.map fun cycles => { seed with cycles := numbered cycles })

/-- `semantic_mutate_cycle_seed` on a seed with enough cycles. -/
def semanticMutateHinted : Drawn (Option CycleAwareSeed) :=
  let transition := Option.map normalizeCycleIds <$> mutateTransitionPrefix seed context.transitionSeedFields
  attempt
    (if ablation.prefixGrowth ∧ (1 < context.cycleHint.getD 1 ∨ ¬ context.transitionSeedFields.isEmpty) then do
      let grow ← coinflip
      if grow then expandStatePrefix maxCycles seed else pure none
    else pure none) <|
  attempt
    (if ablation.transitionGuidance ∧ ¬ context.transitionSeedFields.isEmpty then do
      let guide ← coinflip
      if guide then transition else pure none
    else pure none) <|
  attempt (mutateTerminal fl seed context) <|
  attempt (if ablation.transitionGuidance then transition else pure none)
    (mutateSequence maxCycles seed context)

/-- The seed, and whether it has been mutated, where enough cycles are there within a number of rounds. -/
def semanticMutateCycleSeed (rounds : ℕ) : Drawn (Option (CycleAwareSeed × Bool)) :=
  if context.targetId.isNone then pure (some (seed, false))
  else
    match ensureCycleHint maxCycles rounds seed (max (context.cycleHint.getD 3) 1) with
    | none => pure none
    | some hinted => do
      let mutated ← semanticMutateHinted fl maxCycles hinted context ablation
      pure (some (mutated.getD hinted, mutated.isSome))

/-- The seed that is mutated: one without cycles gets the default record. -/
def mutatedSeed : CycleAwareSeed :=
  if seed.cycles.size = 0 then { seed with cycles := seed.cycles.insert 0 [defaultRecord] } else seed

/-- A target is known, and a coin decides for its guidance. -/
def useSemantic : Drawn Bool := if ablation.targetedMutation ∧ context.targetId.isSome then coinflip else pure false

/-- A seed that guidance has not mutated is mutated at random. -/
def finishMutation : Option (CycleAwareSeed × Bool) → Drawn (Option CycleAwareSeed)
  | none => pure none
  | some (seed, true) => pure (some seed)
  | some (seed, false) => some <$> mutateCycleAwareSeed maxCycles seed

/-- `mutate_with_context` on a seed with cycles. -/
def mutateCycles (rounds : ℕ) : Drawn (Option CycleAwareSeed) := do
  let seed := mutatedSeed seed
  let semantic ← useSemantic context ablation
  let guided ← if semantic then semanticMutateCycleSeed fl maxCycles seed context ablation rounds
    else pure (some (seed, false))
  finishMutation maxCycles guided

end Guided

end SemantiST.Mutation
