import SemantiST.Lib.Detour
import SemantiST.Lib.Fold
import SemantiST.Lib.Map
import SemantiST.Lib.Text

/-!
# Probes on the edges of a terminator

`instrument_successors` (`compiler/stg/src/ir.rs`): the events of a terminator are told in a new block on the edge to
the successor that they name.
-/

namespace SemantiST.Stg.EdgeProbes

open Lib
open Lib.FlowGraph (Graph Language Machine Valid Preserves Detour Detoured Transparent Quiet Behind Direct divert)

/-! ## Functions -/

/-- An instruction of a function, or a call of the hit function. -/
inductive Instruction (ω : Type) where
  | op (operation : ω)
  | hit (runtimeId : ℕ)

/-- A terminator of a function, or an unconditional branch of the builder. -/
inductive Terminator (θ : Type) where
  | op (operation : θ)
  | br

/-- What a function says to its surroundings. -/
inductive Output (ε : Type) where
  | said (what : ε)
  | hit (runtimeId : ℕ)

structure Function (ω θ ν : Type) where
  name : Text
  blocks : Graph (Instruction ω) (Terminator θ) ν
  blockNames : List Text

variable {ω θ ν σ ε : Type}

/-- Calls of the hit function use no names, and return none. -/
def language (L : Language ω θ ν) : Language (Instruction ω) (Terminator θ) ν where
  uses
    | .op o => L.uses o
    | .hit _ => []
  defines
    | .op o => L.defines o
    | .hit _ => []
  isPad
    | .op o => L.isPad o
    | .hit _ => false
  branchUses
    | .op t => L.branchUses t
    | .br => []
  branchDefines
    | .op t => L.branchDefines t
    | .br => fun _ => []
  unwinds
    | .op t => L.unwinds t
    | .br => fun _ => false
  valueUses := L.valueUses

/-- The hit function counts, and does nothing to the function that calls it. -/
def machine (m : Machine ω θ ν σ ε) : Machine (Instruction ω) (Terminator θ) ν σ (Output ε) where
  exec
    | .op o, s => ((m.exec o s).1.map .said, (m.exec o s).2)
    | .hit runtimeId, s => ([.hit runtimeId], some s)
  copy values s := if values = [] then some s else m.copy values s
  select
    | .op t => m.select t
    | .br => fun _ => .take 0

/-! ## The pass -/

/-- What the pass reads of a metadata event. -/
structure MetadataEvent where
  runtimeId : ℕ
  stableId : Text
  semanticEdgeIds : List Text
  kind : Text
  role : Option Text
  hazard : Option Text
  successorHint : Option ℕ

/-- A terminator with its metadata: the terminator of block `block`. -/
structure WorkItem where
  block : ℕ
  sourceBlock : Text
  instructionOrdinal : ℕ
  pou : Text
  loweredAstId : Option ℕ
  events : List MetadataEvent

structure IrSemanticMapping where
  stableId : Text
  runtimeId : ℕ
  semanticEdgeIds : List Text
  targetKind : Text
  role : Option Text
  hazard : Option Text
  pou : Text
  loweredAstId : Option ℕ
  function : Text
  sourceBlock : Text
  sourceInstructionOrdinal : ℕ
  successorIndex : Option ℕ
  destinationBlock : Option Text
  probeBlock : Option Text

structure IrInstrumentationDiagnostic where
  code : Text
  message : Text
  stableId : Option Text
  function : Option Text

def mapping (function : Text) (item : WorkItem) (event : MetadataEvent) (successorIndex : Option ℕ)
    (destinationBlock probeBlock : Option Text) : IrSemanticMapping where
  stableId := event.stableId
  runtimeId := event.runtimeId
  semanticEdgeIds := event.semanticEdgeIds
  targetKind := event.kind
  role := event.role
  hazard := event.hazard
  pou := item.pou
  loweredAstId := item.loweredAstId
  function := function
  sourceBlock := item.sourceBlock
  sourceInstructionOrdinal := item.instructionOrdinal
  successorIndex := successorIndex
  destinationBlock := destinationBlock
  probeBlock := probeBlock

/-- The successor of an event: a terminator with one successor needs no hint. -/
def MetadataEvent.successor (successorCount : ℕ) (event : MetadataEvent) : Option ℕ :=
  event.successorHint.or (if successorCount = 1 then some 0 else none)

/-- The events by successor, and the diagnostics of those that name none. -/
structure Grouping where
  bySuccessor : Std.ExtTreeMap ℕ (List MetadataEvent) compare := ∅
  diagnostics : List IrInstrumentationDiagnostic := []

def Grouping.add (function : Text) (successorCount : ℕ) (grouping : Grouping) (event : MetadataEvent) : Grouping :=
  match event.successor successorCount with
  | none => { grouping with diagnostics := grouping.diagnostics ++ [{
      code := "STG-IR-E004".toList
      message := "CFG-edge event has no successor index".toList
      stableId := some event.stableId
      function := some function }] }
  | some successor =>
    if successorCount ≤ successor then
      { grouping with diagnostics := grouping.diagnostics ++ [{
          code := "STG-IR-E005".toList
          message := "successor index ".toList ++ decimal successor ++
            " exceeds terminator successor count ".toList ++ decimal successorCount
          stableId := some event.stableId
          function := some function }] }
    else
      { grouping with
        bySuccessor := grouping.bySuccessor.insert successor ((grouping.bySuccessor[successor]?).getD [] ++ [event]) }

/-- `sort_by_key(|event| event.runtime_id)`. -/
def sortEvents (events : List MetadataEvent) : List MetadataEvent :=
  events.mergeSort fun event event' => event.runtimeId ≤ event'.runtimeId

/-- The name that the pass asks for a probe. -/
def probeName (events : List MetadataEvent) : Text :=
  "stg.probe.".toList ++ List.intercalate ".".toList (events.map fun event => decimal event.runtimeId)

/-- The probes of one successor.  `unique` makes the name of a new block one that no other block has. -/
def insertProbe (unique : List Text → Text → Text) (item : WorkItem)
    (acc : Function ω θ ν × List IrSemanticMapping) (group : ℕ × List MetadataEvent) :
    Except Text (Function ω θ ν × List IrSemanticMapping) :=
  let function := acc.1
  let events := sortEvents group.2
  match (function.blocks[item.block]?).bind fun block => block.successors[group.1]? with
  | none => .error "LLVM successor is not a valid basic block".toList
  | some destination =>
    let probe := unique function.blockNames (probeName events)
    .ok ({ function with
        blocks := divert function.blocks item.block group.1 destination
          (events.map fun event => .hit event.runtimeId) .br
        blockNames := function.blockNames ++ [probe] },
      acc.2 ++ events.map fun event =>
        mapping function.name item event (some group.1) (some (function.blockNames[destination]?.getD [])) (some probe))

/-- The function, the mappings and the diagnostics. -/
structure Instrumented (ω θ ν : Type) where
  function : Function ω θ ν
  mappings : List IrSemanticMapping
  diagnostics : List IrInstrumentationDiagnostic

def instrumentSuccessors (unique : List Text → Text → Text) (function : Function ω θ ν) (item : WorkItem)
    (successorCount : ℕ) : Except Text (Instrumented ω θ ν) := do
  let grouping := item.events.foldl (Grouping.add function.name successorCount) {}
  let (function, mappings) ← grouping.bySuccessor.toList.foldlM (insertProbe unique item) (function, [])
  return { function, mappings, diagnostics := grouping.diagnostics }

/-! ## What is to be told -/

/-- The events of a successor. -/
def WorkItem.eventsAt (item : WorkItem) (successorCount i : ℕ) : List MetadataEvent :=
  item.events.filter fun event => event.successor successorCount = some i ∧ i < successorCount

/-- The hits of an edge, one for each of its events. -/
def WorkItem.hits (item : WorkItem) (successorCount i : ℕ) : List (Output ε) :=
  (sortEvents (item.eventsAt successorCount i)).map fun event => .hit event.runtimeId

/-- The successors that events name do not start with phi nodes, and are not made for exceptions. -/
def PlainSuccessors (L : Language ω θ ν) (function : Function ω θ ν) (item : WorkItem)
    (block : FlowGraph.Block (Instruction ω) (Terminator θ) ν) : Prop :=
  ∀ event ∈ item.events, ∀ i d D, event.successor block.successors.length = some i → block.successors[i]? = some d →
    function.blocks[d]? = some D → D.phis = [] ∧ D.isPad (language L) = false

/-- No run goes by the address of a block to a successor that an event names. -/
def NamedByIndex (m : Machine ω θ ν σ ε) (function : Function ω θ ν) (item : WorkItem)
    (block : FlowGraph.Block (Instruction ω) (Terminator θ) ν) : Prop :=
  ∀ s n said c, FlowGraph.run (machine m) function.blocks n (FlowGraph.start s) = (said, .running c) →
    c.block = item.block → ∀ s' d i, (FlowGraph.enter (machine m) block c.origin c.state).2 = some s' →
      (machine m).select block.terminator s' = .goTo d → block.successors.findIdx? (· = d) = some i →
        ∀ event ∈ item.events, event.successor block.successors.length ≠ some i

section Grouping

variable {name : Text} {count : ℕ} {grouping : Grouping} {events : List MetadataEvent} {i : ℕ}

theorem Grouping.add_spec (event : MetadataEvent) : (grouping.add name count event).bySuccessor[i]? =
    if event.successor count = some i ∧ i < count then some ((grouping.bySuccessor[i]?).getD [] ++ [event])
    else grouping.bySuccessor[i]? := by
  unfold Grouping.add
  rcases hsuccessor : event.successor count with _ | j
  · simp
  · dsimp only
    split
    · rename_i hle
      rw [if_neg]
      rintro ⟨hij, hlt⟩
      have := Option.some.inj hij
      omega
    · rename_i hle
      rw [getElem?_insert_eq]
      by_cases hij : j = i
      · subst hij
        rw [if_pos rfl, if_pos ⟨rfl, by omega⟩]
      · rw [if_neg hij, if_neg fun h => hij (Option.some.inj h.1)]

/-- **The events of every successor, in their order.** -/
theorem grouping_spec : (events.foldl (Grouping.add name count) grouping).bySuccessor[i]? =
    match events.filter fun event => event.successor count = some i ∧ i < count with
    | [] => grouping.bySuccessor[i]?
    | e :: es => some ((grouping.bySuccessor[i]?).getD [] ++ e :: es) := by
  induction events generalizing grouping with
  | nil => rfl
  | cons event events ih =>
    rw [List.foldl_cons, ih, Grouping.add_spec]
    by_cases h : event.successor count = some i ∧ i < count
    · rw [if_pos h, List.filter_cons_of_pos (by simpa using h)]
      cases events.filter fun event => event.successor count = some i ∧ i < count with
      | nil => rfl
      | cons e es => simp
    · rw [if_neg h, List.filter_cons_of_neg (by simpa using h)]

end Grouping

section Inserting

variable {unique : List Text → Text → Text} {item : WorkItem} {f : Graph (Instruction ω) (Terminator θ) ν}
  {block : FlowGraph.Block (Instruction ω) (Terminator θ) ν} {acc : Function ω θ ν × List IrSemanticMapping}
  {detour : ℕ → Option (Detour (Instruction ω))}

/-- What a probe does. -/
def probeBody (events : List MetadataEvent) : List (Instruction ω) :=
  (sortEvents events).map fun event => .hit event.runtimeId

theorem insertProbe_spec {group : ℕ × List MetadataEvent} {d : ℕ}
    (hd : Detoured .br f acc.1.blocks item.block block detour) (hi : block.successors[group.1]? = some d)
    (hnone : detour group.1 = none) : ∃ acc', insertProbe unique item acc group = .ok acc' ∧
      acc'.1.blocks = divert acc.1.blocks item.block group.1 d (probeBody group.2) .br := by
  obtain ⟨successors, hblock, hsuccessors⟩ := hd.redirected
  have hdest : (acc.1.blocks[item.block]?).bind (fun block => block.successors[group.1]?) = some d := by
    rw [hblock]
    change successors[group.1]? = some d
    rw [hsuccessors, hi, hnone]
    rfl
  unfold insertProbe
  dsimp only
  rw [hdest]
  exact ⟨_, rfl, rfl⟩

/-- **The probes are detours**, one for every successor. -/
theorem insertProbes_spec (groups : List (ℕ × List MetadataEvent))
    (hd : Detoured .br f acc.1.blocks item.block block detour) (hlength : f.length ≤ acc.1.blocks.length)
    (hkeys : (groups.map Prod.fst).Nodup) (hnone : ∀ group ∈ groups, detour group.1 = none)
    (hinside : ∀ group ∈ groups, group.1 < block.successors.length) :
    ∃ acc' detour', groups.foldlM (insertProbe unique item) acc = .ok acc' ∧
      Detoured .br f acc'.1.blocks item.block block detour' ∧
      ∀ i, (detour' i).map Detour.body = ((lastValue groups i).map probeBody).or ((detour i).map Detour.body) := by
  induction groups generalizing acc detour with
  | nil => exact ⟨acc, detour, rfl, hd, fun i => rfl⟩
  | cons group groups ih =>
    have hdest : block.successors[group.1]? = some (block.successors.get ⟨group.1, hinside group List.mem_cons_self⟩) :=
      List.getElem?_eq_getElem _
    rw [List.map_cons, List.nodup_cons] at hkeys
    have hnone₁ := hnone group List.mem_cons_self
    obtain ⟨acc₁, hacc₁, hblocks⟩ := insertProbe_spec hd hdest hnone₁
    have hd₁ := hd.divert hlength hdest hnone₁ (probeBody group.2)
    rw [← hblocks] at hd₁
    have hnone' : ∀ g ∈ groups, (if g.1 = group.1 then some (⟨acc.1.blocks.length, probeBody group.2⟩ : Detour (Instruction ω))
        else detour g.1) = none := by
      intro g hg
      have hne : g.1 ≠ group.1 := fun h => hkeys.1 (h ▸ List.mem_map_of_mem hg)
      rw [if_neg hne]
      exact hnone g (List.mem_cons_of_mem _ hg)
    have hlength₁ : f.length ≤ acc₁.1.blocks.length := by
      rw [hblocks, FlowGraph.length_divert]
      omega
    obtain ⟨acc', detour', hrest, hd', hbody⟩ := ih hd₁ hlength₁ hkeys.2 hnone' fun g hg =>
      hinside g (List.mem_cons_of_mem _ hg)
    refine ⟨acc', detour', foldlM_cons_eq_ok.2 ⟨acc₁, hacc₁, hrest⟩, hd', fun i => ?_⟩
    have hlast : lastValue (group :: groups) i = (lastValue groups i).or (if group.1 = i then some group.2 else none) := by
      rw [← List.singleton_append, lastValue_append, ← lastValue_singleton]
    rw [hbody, hlast]
    rcases hgroups : lastValue groups i with _ | es
    · by_cases hi : i = group.1
      · rw [if_pos hi, if_pos hi.symm]
        rfl
      · rw [if_neg hi, if_neg (Ne.symm hi)]
        rfl
    · rfl

theorem transparent_probes {L : Language ω θ ν} {bodies : ℕ → Option (List MetadataEvent)}
    (h : ∀ i, (detour i).map Detour.body = (bodies i).map probeBody) : Transparent (language L) .br detour where
  body := by
    intro i x hx o ho
    have hbody := h i
    rw [hx, Option.map_some, eq_comm, Option.map_eq_some_iff] at hbody
    obtain ⟨events, -, hbody⟩ := hbody
    rw [← hbody] at ho
    obtain ⟨event, -, rfl⟩ := List.mem_map.1 ho
    exact ⟨rfl, rfl, rfl⟩
  uses := rfl
  defines := fun _ => rfl
  unwinds := fun _ => rfl

/-- A probe makes its hits. -/
theorem runBody_probe (m : Machine ω θ ν σ ε) (events : List MetadataEvent) (s : σ) :
    FlowGraph.runBody (machine m) (events.map fun event => .hit event.runtimeId) s =
      (events.map fun event => .hit event.runtimeId, some s) := by
  induction events with
  | nil => rfl
  | cons event events ih =>
    rw [List.map_cons, FlowGraph.runBody]
    change ([Output.hit event.runtimeId] ++ _, _) = _
    rw [ih]
    rfl

end Inserting

/-! ## The pass as a whole -/

section Whole

variable {unique : List Text → Text → Text} {item : WorkItem} {function : Function ω θ ν}
  {block : FlowGraph.Block (Instruction ω) (Terminator θ) ν}

/-- **What the pass makes of a function**: probes on the edges that events name. -/
theorem instrumentSuccessors_spec (hblock : function.blocks[item.block]? = some block) :
    ∃ result detour, instrumentSuccessors unique function item block.successors.length = .ok result ∧
      Detoured .br function.blocks result.function.blocks item.block block detour ∧
      ∀ i, (detour i).map Detour.body =
        match item.eventsAt block.successors.length i with
        | [] => none
        | e :: es => some (probeBody (e :: es)) := by
  have hspec (i : ℕ) := @grouping_spec function.name block.successors.length {} item.events i
  generalize hgrouping : item.events.foldl (Grouping.add function.name block.successors.length) {} = grouping at hspec
  have hat (i : ℕ) : grouping.bySuccessor[i]? = match item.eventsAt block.successors.length i with
      | [] => none
      | e :: es => some (e :: es) := by
    rw [hspec i, WorkItem.eventsAt]
    cases item.events.filter fun event => event.successor block.successors.length = some i ∧ i < block.successors.length <;>
      rfl
  have hinside : ∀ group ∈ grouping.bySuccessor.toList, group.1 < block.successors.length := by
    intro group hgroup
    have hsome := hat group.1
    rw [Std.ExtTreeMap.mem_toList_iff_getElem?_eq_some.1 hgroup] at hsome
    rcases hevents : item.eventsAt block.successors.length group.1 with _ | ⟨e, es⟩
    · rw [hevents] at hsome
      cases hsome
    · have hmem : e ∈ item.eventsAt block.successors.length group.1 := hevents ▸ List.mem_cons_self
      exact (of_decide_eq_true (List.mem_filter.1 hmem).2).2
  obtain ⟨acc, detour, hacc, hd, hbody⟩ := @insertProbes_spec _ _ _ unique item _ _ (function, []) _
    grouping.bySuccessor.toList (FlowGraph.detoured_self hblock) (Nat.le_refl _)
    (nodup_keys_toList grouping.bySuccessor) (fun _ _ => rfl) hinside
  refine ⟨⟨acc.1, acc.2, grouping.diagnostics⟩, detour, ?_, hd, fun i => ?_⟩
  · unfold instrumentSuccessors
    rw [hgrouping]
    exact bind_eq_ok.2 ⟨acc, hacc, rfl⟩
  · rw [hbody, lastValue_toList, hat]
    cases item.eventsAt block.successors.length i <;> rfl

/-- The edges that have probes are those that events name. -/
theorem isSome_detour_iff {detour : ℕ → Option (Detour (Instruction ω))} {i : ℕ}
    (h : (detour i).map Detour.body =
      match item.eventsAt block.successors.length i with
      | [] => none
      | e :: es => some (probeBody (e :: es))) :
    detour i ≠ none ↔ i < block.successors.length ∧ ∃ event ∈ item.events, event.successor block.successors.length = some i := by
  rcases hevents : item.eventsAt block.successors.length i with _ | ⟨e, es⟩
  · rw [hevents, Option.map_eq_none_iff] at h
    refine iff_of_false (not_not.2 h) ?_
    rintro ⟨hlt, event, hmem, hsuccessor⟩
    have hnone : event ∈ item.eventsAt block.successors.length i :=
      List.mem_filter.2 ⟨hmem, decide_eq_true ⟨hsuccessor, hlt⟩⟩
    rw [hevents] at hnone
    cases hnone
  · have hmem : e ∈ item.eventsAt block.successors.length i := hevents ▸ List.mem_cons_self
    obtain ⟨hevent, hnames⟩ := List.mem_filter.1 hmem
    obtain ⟨hsuccessor, hlt⟩ := of_decide_eq_true hnames
    refine iff_of_true ?_ ⟨hlt, e, hevent, hsuccessor⟩
    intro hnone
    rw [hnone, hevents] at h
    cases h

theorem quiet_probes {m : Machine ω θ ν σ ε} {detour : ℕ → Option (Detour (Instruction ω))}
    (h : ∀ i, (detour i).map Detour.body =
      match item.eventsAt block.successors.length i with
      | [] => none
      | e :: es => some (probeBody (e :: es))) :
    Quiet (machine m) .br detour (item.hits block.successors.length) where
  body := by
    intro i x hx s
    have hbody := h i
    rw [hx] at hbody
    rcases hevents : item.eventsAt block.successors.length i with _ | ⟨e, es⟩
    · rw [hevents] at hbody
      cases hbody
    · rw [hevents] at hbody
      rw [Option.some.inj hbody, probeBody, runBody_probe, WorkItem.hits, hevents]
  none := by
    intro i hi
    have hbody := h i
    rcases hevents : item.eventsAt block.successors.length i with _ | ⟨e, es⟩
    · rw [WorkItem.hits, hevents, sortEvents, List.mergeSort_nil, List.map_nil]
    · rw [hi, hevents] at hbody
      cases hbody
  copy := fun s => show (if ([] : List (ℕ × ν)) = [] then some s else m.copy [] s) = some s from if_pos rfl
  jump := fun _ => rfl

/-- **Probes are right if and only if they are put before blocks without phi nodes** that are not made for exceptions,
and no run goes by the address of such a block: the function is then valid and does what it did, and the hits of an
edge are made once each time that it is taken. -/
theorem instrumentSuccessors_exact_iff (L : Language ω θ ν) (m : Machine ω θ ν σ ε)
    (unique : List Text → Text → Text) (hvalid : Valid (language L) function.blocks)
    (hblock : function.blocks[item.block]? = some block)
    (haddress : ∀ t s d, m.select t s = .goTo d → d < function.blocks.length) :
    ∃ result, instrumentSuccessors unique function item block.successors.length = .ok result ∧
      ((Valid (language L) result.function.blocks ∧
          Preserves (machine m) function.blocks result.function.blocks item.block (item.hits block.successors.length)) ↔
        PlainSuccessors L function item block ∧ NamedByIndex m function item block) := by
  obtain ⟨result, detour, hresult, hd, hbody⟩ := instrumentSuccessors_spec hblock
  have hnamed (i : ℕ) := isSome_detour_iff (hbody i)
  have htransparent : Transparent (language L) .br detour := by
    let bodies (i : ℕ) := match item.eventsAt block.successors.length i with
      | [] => none
      | e :: es => some (e :: es)
    apply @transparent_probes _ _ _ detour L bodies
    intro i
    change _ = (match item.eventsAt block.successors.length i with
      | [] => none
      | e :: es => some (e :: es)).map probeBody
    rw [hbody]
    cases item.eventsAt block.successors.length i <;> rfl
  have haddress' : ∀ t s d, (machine m).select t s = .goTo d → d < function.blocks.length := by
    intro t s d h
    cases t with
    | op t => exact haddress t s d h
    | br => cases h
  refine ⟨result, hresult, (hd.exact_iff hvalid htransparent (quiet_probes hbody) haddress').trans (and_congr ?_ ?_)⟩
  · constructor
    · intro h event hevent i d D hsuccessor hi hD
      have hlt := (List.getElem?_eq_some_iff.1 hi).1
      obtain ⟨x, hx⟩ := Option.ne_none_iff_exists'.1 ((hnamed i).2 ⟨hlt, event, hevent, hsuccessor⟩)
      exact h i x d D hx hi hD
    · intro h i x d D hx hi hD
      obtain ⟨-, event, hevent, hsuccessor⟩ := (hnamed i).1 (by rw [hx]; exact Option.some_ne_none x)
      exact h event hevent i d D hsuccessor hi hD
  · refine forall₄_congr fun s n said c => ?_
    constructor
    · intro h hrun hc s' d i hs hselect hi event hevent hsuccessor
      have hlt := (List.findIdx?_eq_some_iff_getElem.1 hi).1
      exact (hnamed i).2 ⟨hlt, event, hevent, hsuccessor⟩ (h hrun hc s' d i hs hselect hi)
    · intro h hrun hc s' d i hs hselect hi
      by_contra hdetour
      obtain ⟨-, event, hevent, hsuccessor⟩ := (hnamed i).1 hdetour
      exact h hrun hc s' d i hs hselect hi event hevent hsuccessor

end Whole

/-! ## A branch with a phi node behind it -/

/-- A language without names, exceptions and operands. -/
def bareLanguage : Language Unit Unit Unit where
  uses _ := []
  defines _ := []
  isPad _ := false
  branchUses _ := []
  branchDefines _ _ := []
  unwinds _ _ := false
  valueUses _ := []

/-- A machine that takes the branch it is told to take, and leaves once a phi node is set. -/
def branchMachine : Machine Unit Unit Unit (Option Bool) Unit where
  exec _ s := ([], some s)
  copy _ _ := some none
  select _ s := s.elim .leave fun taken => .take (if taken then 0 else 1)

/-- `if` without `else`: block 0 goes to block 1 or past it, and block 2 asks where control comes from. -/
def branching : Function Unit Unit Unit where
  name := "f".toList
  blocks := [
    ⟨[], [], .op (), [1, 2]⟩,
    ⟨[], [], .br, [2]⟩,
    ⟨[⟨0, [(0, ()), (1, ())]⟩], [], .op (), []⟩]
  blockNames := ["entry".toList, "then".toList, "end".toList]

/-- An event of one edge of the branch. -/
def branchItem (successor : ℕ) : WorkItem where
  block := 0
  sourceBlock := "entry".toList
  instructionOrdinal := 0
  pou := "F".toList
  loweredAstId := none
  events := [⟨7, "e".toList, [], "branch".toList, none, none, some successor⟩]

def branchBlock : FlowGraph.Block (Instruction Unit) (Terminator Unit) Unit := ⟨[], [], .op (), [1, 2]⟩

theorem valid_branching : Valid (language bareLanguage) branching.blocks where
  entry := ⟨_, rfl⟩
  targets := by
    intro a B hB d hd
    match a with
    | 0 =>
      obtain rfl := Option.some.inj hB
      rcases List.mem_cons.1 hd with rfl | hd
      · exact ⟨by decide, _, rfl⟩
      · obtain rfl := List.mem_singleton.1 hd
        exact ⟨by decide, _, rfl⟩
    | 1 =>
      obtain rfl := Option.some.inj hB
      obtain rfl := List.mem_singleton.1 hd
      exact ⟨by decide, _, rfl⟩
    | 2 =>
      obtain rfl := Option.some.inj hB
      cases hd
    | a + 3 => cases hB
  phis := by
    intro d D hD φ hφ a
    match d with
    | 0 | 1 =>
      obtain rfl := Option.some.inj hD
      cases hφ
    | 2 =>
      obtain rfl := Option.some.inj hD
      obtain rfl := List.mem_singleton.1 hφ
      match a with
      | 0 | 1 | 2 => rfl
      | a + 3 =>
        rw [List.count_eq_zero.2]
        · rfl
        · simp
    | d + 3 => cases hD
  coherent := fun _ _ _ _ _ _ _ _ _ _ => rfl
  pads := by
    intro a B hB i d D hi hD
    have hpad : D.isPad (language bareLanguage) = false := by
      match d with
      | 0 | 1 | 2 =>
        obtain rfl := Option.some.inj hD
        rfl
      | d + 3 => cases hD
    rw [hpad]
    cases B.terminator <;> rfl
  distinct := by
    intro a B hB
    match a with
    | 0 | 1 | 2 =>
      obtain rfl := Option.some.inj hB
      decide
    | a + 3 => cases hB
  single := by
    have only {a x : ℕ} {B : FlowGraph.Block (Instruction Unit) (Terminator Unit) Unit}
        (hB : branching.blocks[a]? = some B) (hx : x ∈ B.defines (language bareLanguage)) : a = 2 := by
      match a with
      | 0 | 1 =>
        obtain rfl := Option.some.inj hB
        cases hx
      | 2 => rfl
      | a + 3 => cases hB
    intro a a' B B' hB hB' x hx hx'
    rw [only hB hx, only hB' hx']
  bodies := by
    intro a B names _ _ before o after _ x hx
    cases o <;> cases hx
  branches := by
    intro a B names _ _ x hx
    cases h : B.terminator <;> rw [h] at hx <;> cases hx
  operands := fun _ _ _ _ _ _ _ _ _ _ _ _ _ _ x hx => by cases hx

theorem hits_branchItem : (branchItem 0).hits 2 0 = [(.hit 7 : Output Unit)] := by
  simp [WorkItem.hits, WorkItem.eventsAt, branchItem, MetadataEvent.successor, sortEvents]

/-- A probe before the block that asks nothing: its hit is made once by the run through that block. -/
theorem instrumentSuccessors_exact_then : ∃ result,
    instrumentSuccessors (fun _ name => name) branching (branchItem 0) 2 = .ok result ∧
      Valid (language bareLanguage) result.function.blocks ∧
      Preserves (machine branchMachine) branching.blocks result.function.blocks 0 ((branchItem 0).hits 2) ∧
      ∃ k, FlowGraph.visible 3
          (FlowGraph.run (machine branchMachine) result.function.blocks k (FlowGraph.start (some true))).1 =
        [.edge 0 0, .output (.hit 7), .edge 1 0] := by
  obtain ⟨result, hresult, hiff⟩ := @instrumentSuccessors_exact_iff _ _ _ _ _ (branchItem 0) branching branchBlock
    bareLanguage branchMachine (fun _ name => name) valid_branching rfl
    (fun _ s _ h => by rcases s with _ | taken <;> cases h)
  have hright : PlainSuccessors bareLanguage branching (branchItem 0) branchBlock ∧
      NamedByIndex branchMachine branching (branchItem 0) branchBlock := by
    constructor
    · intro event hevent i d D hsuccessor hi hD
      obtain rfl := List.mem_singleton.1 hevent
      obtain rfl : 0 = i := Option.some.inj hsuccessor
      obtain rfl : 1 = d := Option.some.inj hi
      obtain rfl := Option.some.inj hD
      exact ⟨rfl, rfl⟩
    · intro s n said c _ _ s' d i _ hselect
      rcases s' with _ | taken <;> cases hselect
  obtain ⟨hvalid, hpreserves⟩ := hiff.2 hright
  refine ⟨result, hresult, hvalid, hpreserves, ?_⟩
  obtain ⟨k, hvisible, -⟩ := (hpreserves (some true)).1 3
  have hrun : (FlowGraph.run (machine branchMachine) branching.blocks 3 (FlowGraph.start (some true))).1 =
      [.edge 0 0, .edge 1 0] := rfl
  refine ⟨k, hvisible.trans ?_⟩
  rw [hrun]
  change [.edge 0 0] ++ ((branchItem 0).hits 2 0).map FlowGraph.Event.output ++ [.edge 1 0] = _
  rw [hits_branchItem]
  rfl

/-- A probe on the edge past it: the phi node does not know the block of the probe. -/
theorem instrumentSuccessors_not_valid : Valid (language bareLanguage) branching.blocks ∧ ∃ result,
    instrumentSuccessors (fun _ name => name) branching (branchItem 1) 2 = .ok result ∧
      ¬ Valid (language bareLanguage) result.function.blocks := by
  refine ⟨valid_branching, ?_⟩
  obtain ⟨result, detour, hresult, hd, hbody⟩ :=
    @instrumentSuccessors_spec _ _ _ (fun _ name => name) (branchItem 1) branching branchBlock rfl
  refine ⟨result, hresult, fun hvalid => ?_⟩
  have hprobe : detour 1 ≠ none :=
    (@isSome_detour_iff _ _ _ (branchItem 1) branchBlock _ _ (hbody 1)).2 ⟨by decide, _, List.mem_singleton_self _, rfl⟩
  obtain ⟨x, hx⟩ := Option.ne_none_iff_exists'.1 hprobe
  obtain ⟨hge, d, hdest, hP⟩ := hd.inserted 1 x hx
  obtain rfl : 2 = d := Option.some.inj hdest
  obtain ⟨D, hD, hphis, -⟩ := hd.block (a := 2) rfl
  have hcount := hvalid.phis 2 D hD ⟨0, [(0, ()), (1, ())]⟩ (by rw [hphis]; exact List.mem_singleton_self _) x.block
  rw [FlowGraph.edges, hP] at hcount
  have hout : ([0, 1] : List ℕ).count x.block = 0 := by
    have : 3 ≤ x.block := hge
    rw [List.count_eq_zero, List.mem_cons, List.mem_singleton]
    omega
  have hone : ([2] : List ℕ).count 2 = 1 := rfl
  exact absurd (hout.symm.trans (hcount.trans hone)) (by decide)

end SemantiST.Stg.EdgeProbes
