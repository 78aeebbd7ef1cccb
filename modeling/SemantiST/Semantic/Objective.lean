import Mathlib.Data.List.Induction
import Std.Data.ExtTreeMap
import Std.Data.ExtTreeSet
import SemantiST.Lib.Intern
import SemantiST.Lib.Map
import SemantiST.Lib.Text

/-!
# The violation objective

`SemanticViolationObjective` of `fuzzer/semantic/observers.rs`, which reports each semantic
violation once, also after a restart.
-/

namespace SemantiST.Semantic

open Lib

/-! ## Tables -/

structure RuntimeTargetEntry where
  runtimeId : ℕ
  stableId : Text
  pou : Text := []
  nodeId : Text := []
  semanticEdgeIds : List Text := []
  kind : Text
  role : Option Text := none
  hazard : Option Text
  source : Option Text := none
  modeling : Text

/-- What tells one violation from another. -/
structure ViolationKey where
  stableId : Text
  kind : Text
  hazard : Option Text
  deriving DecidableEq

def RuntimeTargetEntry.key (entry : RuntimeTargetEntry) : ViolationKey :=
  ⟨entry.stableId, entry.kind, entry.hazard⟩

abbrev RuntimeIdTable := List RuntimeTargetEntry

/-- The defects that the execution contract's oracles look for. -/
def objectiveHazards : List Text :=
  ["array_access".toList, "pointer_access".toList, "division".toList, "modulo".toList,
    "dangerous_conversion".toList]

def isExactSemanticViolation (entry : RuntimeTargetEntry) : Bool :=
  entry.modeling = "exact".toList ∧
    (entry.kind = "hazard_violation".toList ∨ entry.kind = "property_violation".toList) ∧
    entry.hazard.any (objectiveHazards.contains ·)

/-- The bytes of a coverage map; a probe that was not hit holds zero. -/
abbrev CoverageMap := List UInt8

def isHit (map : CoverageMap) (runtimeId : ℕ) : Bool := map[runtimeId]?.any (· ≠ 0)

/-! ## The objective -/

/-- The order in which a hash map is iterated. -/
structure IterationOrder where
  entries : Std.ExtTreeMap ℕ ℕ compare → List (ℕ × ℕ)
  perm : ∀ m, (entries m).Perm m.toList

structure SemanticViolationObjective where
  candidateSlots : Std.ExtTreeMap ℕ ℕ compare := ∅
  seenCandidates : List Bool := []
  slotEntries : List RuntimeTargetEntry := []
  pending : Option (List RuntimeTargetEntry) := none

namespace SemanticViolationObjective

/-- One round of the loop of `new`, which numbers the violations in the order of the table. -/
def addEntry (acc : List (ℕ × ViolationKey) × SemanticViolationObjective)
    (entry : RuntimeTargetEntry) : List (ℕ × ViolationKey) × SemanticViolationObjective :=
  let (keys, o) := acc
  let next := keys.length
  let slot := (idOf keys entry.key).getD next
  (if (idOf keys entry.key).isNone then keys ++ [(next, entry.key)] else keys,
    { o with
      candidateSlots := o.candidateSlots.insert entry.runtimeId slot
      slotEntries :=
        if slot = o.slotEntries.length then o.slotEntries ++ [entry] else o.slotEntries })

def new (table : RuntimeIdTable) : SemanticViolationObjective :=
  let (keys, o) := (table.filter isExactSemanticViolation).foldl addEntry ([], {})
  { o with seenCandidates := List.replicate keys.length false }

def withPendingFindings (o : SemanticViolationObjective) (pending : List RuntimeTargetEntry) :
    SemanticViolationObjective := { o with pending := some pending }

def withCoveredTargets (o : SemanticViolationObjective) (covered : Std.ExtTreeSet Text compare) :
    SemanticViolationObjective :=
  { o with
    seenCandidates := List.zipWith (fun seen entry => seen || covered.contains entry.stableId)
      o.seenCandidates o.slotEntries }

def seen (o : SemanticViolationObjective) (slot : ℕ) : Bool := o.seenCandidates[slot]?.getD false

/-- One round of the loop of `is_interesting`, for one candidate. -/
def check (map : CoverageMap) (acc : SemanticViolationObjective × Bool) (candidate : ℕ × ℕ) :
    SemanticViolationObjective × Bool :=
  let (o, novel) := acc
  let (runtimeId, slot) := candidate
  if o.seen slot then (o, novel)
  else if isHit map runtimeId then
    ({ o with
      seenCandidates := o.seenCandidates.set slot true
      pending := o.pending.map (· ++ o.slotEntries[slot]?.toList) }, true)
  else (o, novel)

def isInteresting (order : IterationOrder) (o : SemanticViolationObjective) (map : CoverageMap) :
    SemanticViolationObjective × Bool :=
  (order.entries o.candidateSlots).foldl (check map) (o, false)

/-- The objective after the executions, and which of them it found interesting. -/
def run (order : IterationOrder) (o : SemanticViolationObjective) :
    List CoverageMap → SemanticViolationObjective × List Bool
  | [] => (o, [])
  | map :: maps =>
    let (o, novel) := o.isInteresting order map
    let (o, flags) := run order o maps
    (o, novel :: flags)

end SemanticViolationObjective

/-- One byte of the scan of `denseReference`. -/
def scanByte (candidateSlots : Std.ExtTreeMap ℕ ℕ compare) (map : CoverageMap)
    (acc : List Bool × Bool) (runtimeId : ℕ) : List Bool × Bool :=
  if !isHit map runtimeId then acc
  else
    match candidateSlots[runtimeId]? with
    | some slot => (acc.1.set slot true, acc.2 || !(acc.1[slot]?.getD false))
    | none => acc

/-- A full scan of the map for the slots that were never seen before. -/
def denseReference (candidateSlots : Std.ExtTreeMap ℕ ℕ compare) (seen : List Bool)
    (map : CoverageMap) : List Bool × Bool :=
  (List.range map.length).foldl (scanByte candidateSlots map) (seen, false)

/-- The reference over the executions. -/
def denseRun (candidateSlots : Std.ExtTreeMap ℕ ℕ compare) (seen : List Bool) :
    List CoverageMap → List Bool
  | [] => []
  | map :: maps =>
    let (seen, novel) := denseReference candidateSlots seen map
    novel :: denseRun candidateSlots seen maps

/-! ## Coverage -/

/-- The target a probe stands for in the evidence collector: that of its last entry. -/
def targetAt (table : RuntimeIdTable) (runtimeId : ℕ) : Option Text :=
  ((table.filter fun entry => entry.runtimeId = runtimeId).getLast?).map RuntimeTargetEntry.stableId

/-- The targets that an execution covers. -/
def coveredTargets (table : RuntimeIdTable) (map : CoverageMap) : List Text :=
  (List.range map.length).filterMap fun runtimeId =>
    if isHit map runtimeId then targetAt table runtimeId else none

/-- The targets covered by the executions. -/
def coveredSoFar (table : RuntimeIdTable) (maps : List CoverageMap) : Std.ExtTreeSet Text compare :=
  Std.ExtTreeSet.ofList (maps.flatMap (coveredTargets table)) compare

/-! ## The table behind the objective -/

/-- The violation that a probe reports: that of its last entry that is a violation. -/
def violationAt (table : RuntimeIdTable) (runtimeId : ℕ) : Option ViolationKey :=
  (((table.filter isExactSemanticViolation).filter fun entry =>
    entry.runtimeId = runtimeId).getLast?).map RuntimeTargetEntry.key

namespace SemanticViolationObjective

/-- The violation of a candidate. -/
def violation (o : SemanticViolationObjective) (runtimeId : ℕ) : Option ViolationKey :=
  (o.candidateSlots[runtimeId]?).bind fun slot => (o.slotEntries[slot]?).map RuntimeTargetEntry.key

/-- Slots and violations correspond. -/
structure WF (o : SemanticViolationObjective) : Prop where
  nodup : (o.slotEntries.map RuntimeTargetEntry.key).Nodup
  slot_lt : ∀ (runtimeId slot : ℕ), o.candidateSlots[runtimeId]? = some slot → slot < o.slotEntries.length
  seen_length : o.seenCandidates.length = o.slotEntries.length

/-- What the loop of `new` keeps. -/
structure Adding (entries : List RuntimeTargetEntry) (keys : List (ℕ × ViolationKey))
    (o : SemanticViolationObjective) : Prop where
  length : keys.length = o.slotEntries.length
  idOf : ∀ key slot, idOf keys key = some slot ↔
    (o.slotEntries[slot]?).map RuntimeTargetEntry.key = some key
  nodup : (o.slotEntries.map RuntimeTargetEntry.key).Nodup
  slot_lt : ∀ (runtimeId slot : ℕ), o.candidateSlots[runtimeId]? = some slot →
    slot < o.slotEntries.length
  violation : ∀ runtimeId, o.violation runtimeId =
    ((entries.filter fun entry => entry.runtimeId = runtimeId).getLast?).map RuntimeTargetEntry.key
  pending : o.pending = none

theorem Adding.mem_iff {entries : List RuntimeTargetEntry} {keys : List (ℕ × ViolationKey)}
    {o : SemanticViolationObjective} (h : Adding entries keys o) (key : ViolationKey) :
    Lib.idOf keys key = none ↔ key ∉ o.slotEntries.map RuntimeTargetEntry.key := by
  rw [Option.eq_none_iff_forall_ne_some, List.mem_map]
  constructor
  · rintro hnone ⟨entry, hentry, hkey⟩
    obtain ⟨slot, hslot⟩ := List.mem_iff_getElem?.1 hentry
    exact hnone slot ((h.idOf key slot).2 (by rw [hslot, Option.map_some, hkey]))
  · intro hnot slot hslot
    obtain ⟨entry, hentry, hkey⟩ := Option.map_eq_some_iff.1 ((h.idOf key slot).1 hslot)
    exact hnot ⟨entry, List.mem_of_getElem? hentry, hkey⟩

/-- The last entry of a probe. -/
theorem getLast?_filter_concat (entries : List RuntimeTargetEntry) (entry : RuntimeTargetEntry)
    (runtimeId : ℕ) :
    ((entries ++ [entry]).filter fun entry => entry.runtimeId = runtimeId).getLast? =
      if entry.runtimeId = runtimeId then some entry
      else (entries.filter fun entry => entry.runtimeId = runtimeId).getLast? := by
  rw [List.filter_append]
  by_cases hid : entry.runtimeId = runtimeId
  · rw [if_pos hid, List.filter_cons_of_pos (by simp [hid]), List.filter_nil,
      List.getLast?_append, List.getLast?_singleton, Option.some_or]
  · rw [if_neg hid, List.filter_cons_of_neg (by simp [hid]), List.filter_nil, List.append_nil]

section AddEntry

variable {keys : List (ℕ × ViolationKey)} {o : SemanticViolationObjective}
  {entry : RuntimeTargetEntry}

/-- A violation that has a slot. -/
theorem addEntry_known {slot : ℕ} (hslot : Lib.idOf keys entry.key = some slot)
    (hne : slot ≠ o.slotEntries.length) : addEntry (keys, o) entry =
      (keys, { o with candidateSlots := o.candidateSlots.insert entry.runtimeId slot }) := by
  unfold addEntry
  simp only [hslot, Option.getD_some, Option.isNone_some, Bool.false_eq_true, if_false, if_neg hne]

/-- A new violation. -/
theorem addEntry_new (hslot : Lib.idOf keys entry.key = none)
    (hlength : keys.length = o.slotEntries.length) : addEntry (keys, o) entry =
      (keys ++ [(o.slotEntries.length, entry.key)], { o with
        candidateSlots := o.candidateSlots.insert entry.runtimeId o.slotEntries.length
        slotEntries := o.slotEntries ++ [entry] }) := by
  unfold addEntry
  simp only [hslot, Option.getD_none, Option.isNone_none, if_true, hlength]

end AddEntry

theorem Adding.addEntry {entries : List RuntimeTargetEntry} {keys : List (ℕ × ViolationKey)}
    {o : SemanticViolationObjective} (h : Adding entries keys o) (entry : RuntimeTargetEntry) :
    Adding (entries ++ [entry]) (addEntry (keys, o) entry).1 (addEntry (keys, o) entry).2 := by
  cases hslot : Lib.idOf keys entry.key with
  | some slot =>
    obtain ⟨first, hfirst, hkey⟩ := Option.map_eq_some_iff.1 ((h.idOf entry.key slot).1 hslot)
    have hlt := (List.getElem?_eq_some_iff.1 hfirst).1
    rw [addEntry_known hslot (Nat.ne_of_lt hlt)]
    refine ⟨h.length, h.idOf, h.nodup, fun runtimeId slot' hslot' => ?_, fun runtimeId => ?_,
      h.pending⟩
    · rw [getElem?_insert_eq] at hslot'
      split at hslot'
      · obtain rfl := Option.some.inj hslot'
        exact hlt
      · exact h.slot_lt runtimeId slot' hslot'
    · rw [getLast?_filter_concat]
      have hold := h.violation runtimeId
      unfold SemanticViolationObjective.violation at hold ⊢
      rw [getElem?_insert_eq]
      split
      · rw [Option.bind_some, hfirst, Option.map_some, hkey, Option.map_some]
      · exact hold
  | none =>
    have hnew := (h.mem_iff entry.key).1 hslot
    rw [addEntry_new hslot h.length]
    refine ⟨?_, fun key slot => ?_, ?_, fun runtimeId slot hslot' => ?_, fun runtimeId => ?_,
      h.pending⟩
    · rw [List.length_append, List.length_append, h.length, List.length_singleton,
        List.length_singleton]
    · have hfind : Lib.idOf (keys ++ [(o.slotEntries.length, entry.key)]) key =
          (Lib.idOf keys key).or (if entry.key = key then some o.slotEntries.length else none) := by
        unfold Lib.idOf
        rw [List.find?_append, Option.map_or, List.find?_singleton]
        congr 1
        split
        · rename_i hkey
          rw [if_pos (of_decide_eq_true hkey)]
          rfl
        · rename_i hkey
          rw [if_neg fun h => hkey (decide_eq_true h)]
          rfl
      rw [hfind]
      by_cases hlt : slot < o.slotEntries.length
      · rw [List.getElem?_append_left hlt, ← h.idOf]
        cases Lib.idOf keys key with
        | some other => rfl
        | none =>
          rw [Option.none_or]
          refine ⟨fun heq => ?_, fun heq => nomatch heq⟩
          split at heq
          · exact absurd (Option.some.inj heq) (by omega)
          · exact nomatch heq
      · have hgone : Lib.idOf keys key ≠ some slot := by
          intro heq
          obtain ⟨first, hfirst, -⟩ := Option.map_eq_some_iff.1 ((h.idOf key slot).1 heq)
          exact hlt (List.getElem?_eq_some_iff.1 hfirst).1
        rw [List.getElem?_append_right (by omega)]
        cases hold : Lib.idOf keys key with
        | some other =>
          rw [Option.some_or]
          refine ⟨fun heq => absurd (hold.trans heq) hgone, fun heq => ?_⟩
          obtain ⟨last, hlast, hkey⟩ := Option.map_eq_some_iff.1 heq
          obtain rfl := List.mem_singleton.1 (List.mem_of_getElem? hlast)
          rw [hkey, hold] at hslot
          exact nomatch hslot
        | none =>
          rw [Option.none_or]
          by_cases hn : slot = o.slotEntries.length
          · subst hn
            simp
          · rw [List.getElem?_eq_none (by simp only [List.length_singleton]; omega)]
            refine ⟨fun heq => ?_, fun heq => nomatch heq⟩
            split at heq
            · exact absurd (Option.some.inj heq).symm hn
            · exact nomatch heq
    · rw [List.map_append, List.nodup_append]
      refine ⟨h.nodup, List.nodup_singleton _, ?_⟩
      rintro key hkey _ hentry rfl
      rw [List.map_singleton, List.mem_singleton] at hentry
      exact hnew (hentry ▸ hkey)
    · rw [List.length_append, List.length_singleton]
      rw [getElem?_insert_eq] at hslot'
      split at hslot'
      · obtain rfl := Option.some.inj hslot'
        omega
      · have hlt := h.slot_lt runtimeId slot hslot'
        omega
    · rw [getLast?_filter_concat]
      have hold := h.violation runtimeId
      unfold SemanticViolationObjective.violation at hold ⊢
      rw [getElem?_insert_eq]
      split
      · rw [Option.bind_some, List.getElem?_concat_length, Option.map_some]
      · rw [← hold]
        cases hcandidate : o.candidateSlots[runtimeId]? with
        | none => rfl
        | some slot =>
          rw [Option.bind_some, Option.bind_some,
            List.getElem?_append_left (h.slot_lt runtimeId slot hcandidate)]

theorem adding_foldl (entries : List RuntimeTargetEntry) :
    Adding entries (entries.foldl SemanticViolationObjective.addEntry ([], {})).1
      (entries.foldl SemanticViolationObjective.addEntry ([], {})).2 := by
  induction entries using List.reverseRecOn with
  | nil =>
    refine ⟨rfl, fun key slot => ?_, List.nodup_nil, fun runtimeId slot h => ?_, fun runtimeId => ?_, rfl⟩
    · simp [Lib.idOf]
    · simp at h
    · simp [violation]
  | append_singleton entries entry ih =>
    rw [List.foldl_append]
    exact ih.addEntry entry

theorem new_wf (table : RuntimeIdTable) : (new table).WF := by
  have h := adding_foldl (table.filter isExactSemanticViolation)
  exact ⟨h.nodup, h.slot_lt, (List.length_replicate).trans h.length⟩

/-- The slot of a probe is that of its violation. -/
theorem violation_new (table : RuntimeIdTable) (runtimeId : ℕ) :
    (new table).violation runtimeId = violationAt table runtimeId :=
  (adding_foldl (table.filter isExactSemanticViolation)).violation runtimeId

theorem seen_new (table : RuntimeIdTable) (slot : ℕ) : (new table).seen slot = false := by
  unfold seen new
  simp only [List.getElem?_replicate]
  split
  · rfl
  · rfl

/-! ## One execution -/

section Executions

variable {o : SemanticViolationObjective} {map : CoverageMap} {slot : ℕ}

/-- An execution hits a slot. -/
def HitsSlot (o : SemanticViolationObjective) (map : CoverageMap) (slot : ℕ) : Prop :=
  ∃ runtimeId : ℕ, o.candidateSlots[runtimeId]? = some slot ∧ isHit map runtimeId = true

/-- The objective with these slots seen and their findings pending. -/
def report (o : SemanticViolationObjective) (slots : List ℕ) : SemanticViolationObjective :=
  { o with
    seenCandidates := slots.foldl (fun seen slot => seen.set slot true) o.seenCandidates
    pending := o.pending.map (· ++ slots.filterMap (o.slotEntries[·]?)) }

theorem seen_set {list : List Bool} {slot : ℕ} (h : slot < list.length) (slot' : ℕ) :
    ((list.set slot true)[slot']?).getD false = (decide (slot = slot') || (list[slot']?).getD false) := by
  by_cases heq : slot = slot'
  · subst heq
    rw [List.getElem?_set_self h, decide_eq_true rfl]
    rfl
  · rw [List.getElem?_set_ne heq, decide_eq_false heq, Bool.false_or]

theorem seen_report {slots : List ℕ} (h : ∀ slot ∈ slots, slot < o.seenCandidates.length) :
    (o.report slots).seen slot = true ↔ slot ∈ slots ∨ o.seen slot = true := by
  have hfold : ∀ (slots : List ℕ) (list : List Bool), (∀ slot ∈ slots, slot < list.length) →
      (((slots.foldl (fun seen slot => seen.set slot true) list)[slot]?).getD false = true ↔
        slot ∈ slots ∨ (list[slot]?).getD false = true) := by
    intro slots
    induction slots with
    | nil => simp
    | cons first slots ih =>
      intro list hlist
      have hrest : ∀ slot ∈ slots, slot < (list.set first true).length := by
        intro slot hslot
        rw [List.length_set]
        exact hlist slot (List.mem_cons_of_mem _ hslot)
      rw [List.foldl_cons, ih _ hrest, seen_set (hlist first List.mem_cons_self), Bool.or_eq_true,
        decide_eq_true_eq, List.mem_cons]
      tauto
  exact hfold slots o.seenCandidates h

theorem report_nil (o : SemanticViolationObjective) : o.report [] = o := by
  obtain ⟨candidateSlots, seenCandidates, slotEntries, _ | pending⟩ := o
  · rfl
  · simp [report]

theorem report_cons (o : SemanticViolationObjective) (slot : ℕ) (slots : List ℕ) :
    (o.report [slot]).report slots = o.report (slot :: slots) := by
  unfold report
  cases hpending : o.pending with
  | none => rfl
  | some pending =>
    have hcons : (slot :: slots).filterMap (o.slotEntries[·]?) =
        [slot].filterMap (o.slotEntries[·]?) ++ slots.filterMap (o.slotEntries[·]?) :=
      List.filterMap_append (l := [slot])
    simp only [Option.map_some, hcons, List.append_assoc]
    rfl

theorem check_hit {o : SemanticViolationObjective} {runtimeId slot : ℕ} {novel : Bool}
    (hseen : o.seen slot = false) (hhit : isHit map runtimeId = true) :
    check map (o, novel) (runtimeId, slot) = (o.report [slot], true) := by
  have hentry : [slot].filterMap (o.slotEntries[·]?) = (o.slotEntries[slot]?).toList := by
    cases h : o.slotEntries[slot]? <;> simp [h]
  simp only [check, hseen, hhit, Bool.false_eq_true, if_false, if_true, report, hentry]
  rfl

/-- The loop over the candidates reports the slots that are hit and were not seen. -/
theorem foldl_check (map : CoverageMap) (candidates : List (ℕ × ℕ)) (o : SemanticViolationObjective)
    (novel : Bool) (h : ∀ candidate ∈ candidates, candidate.2 < o.seenCandidates.length) :
    ∃ slots : List ℕ, slots.Nodup ∧
      (∀ slot, slot ∈ slots ↔ o.seen slot = false ∧
        ∃ runtimeId, (runtimeId, slot) ∈ candidates ∧ isHit map runtimeId = true) ∧
      candidates.foldl (check map) (o, novel) = (o.report slots, novel || !slots.isEmpty) := by
  induction candidates generalizing o novel with
  | nil => exact ⟨[], List.nodup_nil, by simp, by simp [report_nil]⟩
  | cons candidate candidates ih =>
    obtain ⟨runtimeId, slot⟩ := candidate
    have hslot : slot < o.seenCandidates.length := h _ List.mem_cons_self
    have hrest : ∀ candidate ∈ candidates, candidate.2 < o.seenCandidates.length := fun c hc =>
      h c (List.mem_cons_of_mem _ hc)
    by_cases hreport : o.seen slot = false ∧ isHit map runtimeId = true
    · -- the slot is reported, and seen from now on
      obtain ⟨slots, hnodup, hmem, hfold⟩ := ih (o.report [slot]) true (by
        intro c hc
        have hlength : (o.report [slot]).seenCandidates.length = o.seenCandidates.length :=
          List.length_set
        rw [hlength]
        exact hrest c hc)
      have hseen : ∀ slot', (o.report [slot]).seen slot' = true ↔ slot' = slot ∨ o.seen slot' = true := by
        intro slot'
        rw [seen_report (fun s hs => List.mem_singleton.1 hs ▸ hslot), List.mem_singleton]
      refine ⟨slot :: slots, List.nodup_cons.2 ⟨fun hslots => ?_, hnodup⟩, fun slot' => ?_, ?_⟩
      · have hnot := ((hmem slot).1 hslots).1
        rw [(hseen slot).2 (.inl rfl)] at hnot
        exact nomatch hnot
      · rw [List.mem_cons, hmem, ← Bool.not_eq_true, hseen, ← Bool.not_eq_true]
        constructor
        · rintro (rfl | ⟨hnew, id, hid, hhit⟩)
          · exact ⟨by simp [hreport.1], runtimeId, List.mem_cons_self, hreport.2⟩
          · exact ⟨fun hold => hnew (.inr hold), id, List.mem_cons_of_mem _ hid, hhit⟩
        · rintro ⟨hnew, id, hid, hhit⟩
          by_cases heq : slot' = slot
          · exact .inl heq
          · refine .inr ⟨fun hold => hold.elim heq hnew, id, ?_, hhit⟩
            rcases List.mem_cons.1 hid with hpair | hid
            · exact absurd (congrArg Prod.snd hpair) heq
            · exact hid
      · rw [List.foldl_cons, check_hit hreport.1 hreport.2, hfold, report_cons]
        simp
    · -- nothing changes
      obtain ⟨slots, hnodup, hmem, hfold⟩ := ih o novel hrest
      refine ⟨slots, hnodup, fun slot' => ?_, ?_⟩
      · rw [hmem]
        refine and_congr_right fun hnew => ⟨?_, ?_⟩
        · rintro ⟨id, hid, hhit⟩
          exact ⟨id, List.mem_cons_of_mem _ hid, hhit⟩
        · rintro ⟨id, hid, hhit⟩
          rcases List.mem_cons.1 hid with hpair | hid
          · obtain ⟨rfl, rfl⟩ := Prod.mk.inj hpair
            exact absurd ⟨hnew, hhit⟩ hreport
          · exact ⟨id, hid, hhit⟩
      · rw [List.foldl_cons, ← hfold]
        congr 1
        unfold check
        simp only
        split
        · rfl
        · rename_i hseen
          rw [if_neg fun hhit => hreport ⟨Bool.eq_false_iff.2 hseen, hhit⟩]

/-- **What an execution reports**: each slot that is hit and was not seen, once. -/
theorem isInteresting_spec (order : IterationOrder) (h : o.WF) (map : CoverageMap) :
    ∃ slots : List ℕ, slots.Nodup ∧
      (∀ slot, slot ∈ slots ↔ o.seen slot = false ∧ HitsSlot o map slot) ∧
      o.isInteresting order map = (o.report slots, !slots.isEmpty) := by
  have hmem : ∀ candidate : ℕ × ℕ, candidate ∈ order.entries o.candidateSlots ↔
      o.candidateSlots[candidate.1]? = some candidate.2 := by
    intro candidate
    rw [(order.perm o.candidateSlots).mem_iff]
    exact Std.ExtTreeMap.mem_toList_iff_getElem?_eq_some
  obtain ⟨slots, hnodup, hslots, hfold⟩ := foldl_check map (order.entries o.candidateSlots) o false
    (fun candidate hc => by
      rw [h.seen_length]
      exact h.slot_lt candidate.1 candidate.2 ((hmem candidate).1 hc))
  refine ⟨slots, hnodup, fun slot => ?_, ?_⟩
  · rw [hslots]
    refine and_congr_right fun _ => exists_congr fun runtimeId => ?_
    rw [hmem (runtimeId, slot)]
  · rw [isInteresting, hfold, Bool.false_or]

theorem WF.report (h : o.WF) (slots : List ℕ) : (o.report slots).WF := by
  have hlength : ∀ list : List Bool,
      (slots.foldl (fun seen slot => seen.set slot true) list).length = list.length := by
    induction slots with
    | nil => exact fun _ => rfl
    | cons slot slots ih =>
      intro list
      rw [List.foldl_cons, ih, List.length_set]
  exact ⟨h.nodup, h.slot_lt, (hlength _).trans h.seen_length⟩

/-- A slot is hit by one of the first `n` bytes of the map. -/
def HitBelow (candidateSlots : Std.ExtTreeMap ℕ ℕ compare) (map : CoverageMap) (n slot : ℕ) : Prop :=
  ∃ runtimeId < n, candidateSlots[runtimeId]? = some slot ∧ isHit map runtimeId = true

theorem hitBelow_succ {candidateSlots : Std.ExtTreeMap ℕ ℕ compare} {n : ℕ} :
    HitBelow candidateSlots map (n + 1) slot ↔ HitBelow candidateSlots map n slot ∨
      candidateSlots[n]? = some slot ∧ isHit map n = true := by
  constructor
  · rintro ⟨id, hlt, hid⟩
    by_cases hn : id = n
    · subst hn
      exact .inr hid
    · exact .inl ⟨id, by omega, hid⟩
  · rintro (⟨id, hlt, hid⟩ | hid)
    · exact ⟨id, by omega, hid⟩
    · exact ⟨n, by omega, hid⟩

/-- What the scan has found after the first `n` bytes. -/
structure Scanned (candidateSlots : Std.ExtTreeMap ℕ ℕ compare) (map : CoverageMap)
    (seen : List Bool) (n : ℕ) (result : List Bool × Bool) : Prop where
  length : result.1.length = seen.length
  marked : ∀ slot, (result.1[slot]?).getD false = true ↔
    (seen[slot]?).getD false = true ∨ HitBelow candidateSlots map n slot
  novel : result.2 = true ↔ ∃ slot, (seen[slot]?).getD false = false ∧ HitBelow candidateSlots map n slot

theorem Scanned.succ {candidateSlots : Std.ExtTreeMap ℕ ℕ compare} {seen : List Bool} {n : ℕ}
    {result : List Bool × Bool} (hresult : Scanned candidateSlots map seen n result)
    (h : ∀ (runtimeId slot : ℕ), candidateSlots[runtimeId]? = some slot → slot < seen.length) :
    Scanned candidateSlots map seen (n + 1) (scanByte candidateSlots map result n) := by
  have hskip : (∀ slot, ¬ (candidateSlots[n]? = some slot ∧ isHit map n = true)) →
      Scanned candidateSlots map seen (n + 1) result := by
    intro hnone
    have hsame : ∀ slot, HitBelow candidateSlots map (n + 1) slot ↔
        HitBelow candidateSlots map n slot := by
      intro slot
      rw [hitBelow_succ, or_iff_left (hnone slot)]
    refine ⟨hresult.length, fun slot => ?_, ?_⟩
    · rw [hsame, hresult.marked]
    · simp only [hsame, hresult.novel]
  unfold scanByte
  split
  · rename_i hhit
    exact hskip fun slot hslot => by simp [hslot.2] at hhit
  · rename_i hhit
    rw [Bool.not_eq_true, Bool.not_eq_false'] at hhit
    split
    · rename_i slot hslot
      have hlt : slot < result.1.length := hresult.length ▸ h n slot hslot
      have hmark : ∀ slot', HitBelow candidateSlots map (n + 1) slot' ↔
          HitBelow candidateSlots map n slot' ∨ slot = slot' := by
        intro slot'
        rw [hitBelow_succ, hslot, Option.some.injEq, and_iff_left hhit]
      refine ⟨List.length_set.trans hresult.length, fun slot' => ?_, ?_⟩
      · rw [seen_set hlt, Bool.or_eq_true, hresult.marked, hmark, decide_eq_true_eq]
        tauto
      · simp only [hmark, Bool.or_eq_true, hresult.novel]
        constructor
        · rintro (⟨slot', hnew, hbelow⟩ | hnew)
          · exact ⟨slot', hnew, .inl hbelow⟩
          · have hseen : ¬ (result.1[slot]?).getD false = true := by simpa using hnew
            rw [hresult.marked] at hseen
            exact ⟨slot, Bool.eq_false_iff.2 fun h => hseen (.inl h), .inr rfl⟩
        · rintro ⟨slot', hnew, hbelow | rfl⟩
          · exact .inl ⟨slot', hnew, hbelow⟩
          · by_cases hbelow : HitBelow candidateSlots map n slot
            · exact .inl ⟨slot, hnew, hbelow⟩
            · refine .inr ?_
              have hseen : ¬ (result.1[slot]?).getD false = true := by
                rw [hresult.marked]
                rintro (h | h)
                · rw [hnew] at h
                  cases h
                · exact hbelow h
              simpa using hseen
    · rename_i hnone
      exact hskip fun slot hslot => by simp [hslot.1] at hnone

/-- The full scan marks what is hit, and finds something new when a slot that is hit was not seen. -/
theorem scanned_denseReference {candidateSlots : Std.ExtTreeMap ℕ ℕ compare} {seen : List Bool}
    (h : ∀ (runtimeId slot : ℕ), candidateSlots[runtimeId]? = some slot → slot < seen.length)
    (map : CoverageMap) :
    Scanned candidateSlots map seen map.length (denseReference candidateSlots seen map) := by
  have hscan : ∀ n, Scanned candidateSlots map seen n
      ((List.range n).foldl (scanByte candidateSlots map) (seen, false)) := by
    intro n
    induction n with
    | zero =>
      refine ⟨rfl, fun slot => ?_, ?_⟩
      · simp [HitBelow]
      · simp [HitBelow]
    | succ n ih =>
      rw [List.range_succ, List.foldl_append]
      exact ih.succ h
  exact hscan map.length

theorem lt_of_isHit {runtimeId : ℕ} (h : isHit map runtimeId = true) : runtimeId < map.length := by
  by_contra hge
  rw [isHit, List.getElem?_eq_none (by omega)] at h
  exact nomatch h

theorem hitBelow_length : HitBelow o.candidateSlots map map.length slot ↔ HitsSlot o map slot := by
  constructor
  · rintro ⟨id, -, hid⟩
    exact ⟨id, hid⟩
  · rintro ⟨id, hid⟩
    exact ⟨id, lt_of_isHit hid.2, hid⟩

/-- The objective agrees with the full scan. -/
theorem isInteresting_dense (order : IterationOrder) (h : o.WF) {seen : List Bool}
    (hlength : seen.length = o.seenCandidates.length)
    (hseen : ∀ slot, (seen[slot]?).getD false = o.seen slot) (map : CoverageMap) :
    (denseReference o.candidateSlots seen map).2 = (o.isInteresting order map).2 ∧
    (denseReference o.candidateSlots seen map).1.length =
      (o.isInteresting order map).1.seenCandidates.length ∧
    ∀ slot, ((denseReference o.candidateSlots seen map).1[slot]?).getD false =
      (o.isInteresting order map).1.seen slot := by
  obtain ⟨slots, -, hslots, hstep⟩ := isInteresting_spec order h map
  have hscan : Scanned o.candidateSlots map seen map.length
      (denseReference o.candidateSlots seen map) := by
    refine scanned_denseReference (fun id slot hslot => ?_) map
    rw [hlength, h.seen_length]
    exact h.slot_lt id slot hslot
  have hreport : (o.report slots).seenCandidates.length = o.seenCandidates.length :=
    (h.report slots).seen_length.trans h.seen_length.symm
  rw [hstep]
  refine ⟨?_, ?_, fun slot => ?_⟩
  · rw [Bool.eq_iff_iff, hscan.novel]
    simp only [hseen, hitBelow_length, ← hslots]
    rw [Bool.not_eq_true', List.isEmpty_eq_false_iff_exists_mem]
  · rw [hscan.length, hlength, hreport]
  · rw [Bool.eq_iff_iff, hscan.marked, hseen, hitBelow_length, seen_report, hslots]
    · cases o.seen slot <;> simp
    · intro slot hslot
      obtain ⟨-, id, hid, -⟩ := (hslots slot).1 hslot
      rw [h.seen_length]
      exact h.slot_lt id slot hid

end Executions

/-! ## Runs -/

section Runs

variable {o o' : SemanticViolationObjective} {table : RuntimeIdTable}

theorem report_append (o : SemanticViolationObjective) (slots slots' : List ℕ) :
    (o.report slots).report slots' = o.report (slots ++ slots') := by
  unfold report
  cases o.pending with
  | none => simp [List.foldl_append]
  | some pending => simp [List.foldl_append]

theorem lt_of_hitsSlot {map : CoverageMap} {slot : ℕ} (h : o.WF) (hhit : HitsSlot o map slot) :
    slot < o.seenCandidates.length := by
  obtain ⟨id, hid, -⟩ := hhit
  rw [h.seen_length]
  exact h.slot_lt id slot hid

/-- **What a run reports**: each slot that is hit and was not seen at the start, once. -/
theorem run_spec (order : IterationOrder) (h : o.WF) (maps : List CoverageMap) :
    ∃ slots : List ℕ, slots.Nodup ∧
      (∀ slot, slot ∈ slots ↔ o.seen slot = false ∧ ∃ map ∈ maps, HitsSlot o map slot) ∧
      (run order o maps).1 = o.report slots := by
  induction maps generalizing o with
  | nil => exact ⟨[], List.nodup_nil, by simp, by rw [report_nil]; rfl⟩
  | cons map maps ih =>
    obtain ⟨first, hfirst, hmem, hstep⟩ := isInteresting_spec order h map
    obtain ⟨slots, hslots, hmem', hrun⟩ := ih (h.report first)
    have hlt : ∀ slot ∈ first, slot < o.seenCandidates.length := fun slot hslot =>
      lt_of_hitsSlot h ((hmem slot).1 hslot).2
    have hseen : ∀ slot, (o.report first).seen slot = false ↔ slot ∉ first ∧ o.seen slot = false := by
      intro slot
      rw [← Bool.not_eq_true, seen_report hlt, not_or, Bool.not_eq_true]
    refine ⟨first ++ slots, ?_, fun slot => ?_, ?_⟩
    · rw [List.nodup_append]
      refine ⟨hfirst, hslots, fun slot hslot slot' hslot' heq => ?_⟩
      exact ((hseen slot').1 ((hmem' slot').1 hslot').1).1 (heq ▸ hslot)
    · rw [List.mem_append, hmem, hmem', hseen]
      constructor
      · rintro (⟨hnew, hhit⟩ | ⟨⟨-, hnew⟩, other, hother, hhit⟩)
        · exact ⟨hnew, map, List.mem_cons_self, hhit⟩
        · exact ⟨hnew, other, List.mem_cons_of_mem _ hother, hhit⟩
      · rintro ⟨hnew, other, hother, hhit⟩
        by_cases hin : slot ∈ first
        · exact .inl ((hmem slot).1 hin)
        · rcases List.mem_cons.1 hother with rfl | hother
          · exact absurd ((hmem slot).2 ⟨hnew, hhit⟩) hin
          · exact .inr ⟨⟨hin, hnew⟩, other, hother, hhit⟩
    · rw [run, hstep]
      exact hrun.trans (report_append o first slots)

/-- The flags of a run are those of the full scans. -/
theorem run_dense (order : IterationOrder) (h : o.WF) {seen : List Bool}
    (hlength : seen.length = o.seenCandidates.length)
    (hseen : ∀ slot, (seen[slot]?).getD false = o.seen slot) (maps : List CoverageMap) :
    (run order o maps).2 = denseRun o.candidateSlots seen maps := by
  induction maps generalizing o seen with
  | nil => rfl
  | cons map maps ih =>
    obtain ⟨hnovel, hlength', hseen'⟩ := isInteresting_dense order h hlength hseen map
    obtain ⟨slots, -, -, hstep⟩ := isInteresting_spec order h map
    have hwf : (o.isInteresting order map).1.WF := by
      rw [hstep]
      exact h.report slots
    have hcandidates : (o.isInteresting order map).1.candidateSlots = o.candidateSlots := by
      rw [hstep]
      rfl
    rw [run, denseRun]
    simp only [hnovel]
    rw [ih hwf hlength' hseen', hcandidates]

/-- Two objectives for the same slots have seen the same of those that can be hit. -/
structure Agree (o o' : SemanticViolationObjective) : Prop where
  candidateSlots : o.candidateSlots = o'.candidateSlots
  slotEntries : o.slotEntries = o'.slotEntries
  seen : ∀ (runtimeId slot : ℕ), o.candidateSlots[runtimeId]? = some slot → o.seen slot = o'.seen slot

theorem Agree.hitsSlot (h : Agree o o') {map : CoverageMap} {slot : ℕ} :
    HitsSlot o map slot ↔ HitsSlot o' map slot := by
  unfold HitsSlot
  rw [h.candidateSlots]

/-- Both report the same slots. -/
theorem Agree.reports (h : Agree o o') {hit : ℕ → Prop} (hhit : ∀ slot, hit slot → ∃ map, HitsSlot o map slot)
    {slots slots' : List ℕ} (hslots : ∀ slot, slot ∈ slots ↔ o.seen slot = false ∧ hit slot)
    (hslots' : ∀ slot, slot ∈ slots' ↔ o'.seen slot = false ∧ hit slot) (slot : ℕ) :
    slot ∈ slots ↔ slot ∈ slots' := by
  rw [hslots, hslots']
  refine and_congr_left fun hslot => ?_
  obtain ⟨map, id, hid, -⟩ := hhit slot hslot
  rw [h.seen id slot hid]

/-- The next executions are interesting to both or to neither. -/
theorem Agree.flags (order order' : IterationOrder) (hwf : o.WF) (hwf' : o'.WF) (h : Agree o o')
    (maps : List CoverageMap) : (run order o maps).2 = (run order' o' maps).2 := by
  induction maps generalizing o o' with
  | nil => rfl
  | cons map maps ih =>
    obtain ⟨slots, -, hmem, hstep⟩ := isInteresting_spec order hwf map
    obtain ⟨slots', -, hmem', hstep'⟩ := isInteresting_spec order' hwf' map
    simp only [← h.hitsSlot] at hmem'
    have hsame := h.reports (fun slot hslot => ⟨map, hslot⟩) hmem hmem'
    have hflag : slots.isEmpty = slots'.isEmpty := by
      rw [Bool.eq_iff_iff, List.isEmpty_iff, List.isEmpty_iff, List.eq_nil_iff_forall_not_mem,
        List.eq_nil_iff_forall_not_mem]
      simp only [hsame]
    have hagree : Agree (o.report slots) (o'.report slots') := by
      refine ⟨h.candidateSlots, h.slotEntries, fun id slot hid => ?_⟩
      rw [Bool.eq_iff_iff, seen_report, seen_report, hsame, h.seen id slot hid]
      · intro slot hslot
        exact lt_of_hitsSlot hwf' (h.hitsSlot.1 ((hmem' slot).1 hslot).2)
      · intro slot hslot
        exact lt_of_hitsSlot hwf ((hmem slot).1 hslot).2
    rw [run, run, hstep, hstep']
    simp only [hflag]
    rw [ih (hwf.report slots) (hwf'.report slots') hagree]

end Runs

/-! ## Restarts -/

/-- The objective of a campaign, whose findings are collected. -/
def start (table : RuntimeIdTable) : SemanticViolationObjective := (new table).withPendingFindings []

/-- The objective after a restart. -/
def resumed (table : RuntimeIdTable) (maps : List CoverageMap) : SemanticViolationObjective :=
  (start table).withCoveredTargets (coveredSoFar table maps)

/-- **What the objective promises.** -/
structure Faithful (table : RuntimeIdTable) : Prop where
  /-- It finds an execution interesting when the full scan does. -/
  dense : ∀ order maps, (run order (start table) maps).2 =
    denseRun (start table).candidateSlots (start table).seenCandidates maps
  /-- Its findings are the violations that were hit, each of them once. -/
  once : ∀ order maps, ∃ findings, (run order (start table) maps).1.pending = some findings ∧
    (findings.map RuntimeTargetEntry.key).Nodup ∧
    ∀ key, key ∈ findings.map RuntimeTargetEntry.key ↔
      ∃ map ∈ maps, ∃ runtimeId, isHit map runtimeId = true ∧ violationAt table runtimeId = some key
  /-- After a restart it reports what the uninterrupted run would still report. -/
  restart : ∀ order order' before after,
    (run order' (resumed table before) after).2 =
      (run order (run order (start table) before).1 after).2 ∧
    ∃ old new findings, (run order (start table) before).1.pending = some old ∧
      (run order (run order (start table) before).1 after).1.pending = some (old ++ new) ∧
      (run order' (resumed table before) after).1.pending = some findings ∧ new.Perm findings

section Restart

variable {table : RuntimeIdTable}

theorem start_wf (table : RuntimeIdTable) : (start table).WF := by
  have h := new_wf table
  exact ⟨h.nodup, h.slot_lt, h.seen_length⟩

theorem seen_start (table : RuntimeIdTable) (slot : ℕ) : (start table).seen slot = false :=
  seen_new table slot

theorem violation_start (table : RuntimeIdTable) (runtimeId : ℕ) :
    (start table).violation runtimeId = violationAt table runtimeId := violation_new table runtimeId

/-- A violation has one slot. -/
theorem violationAt_eq_some_iff {runtimeId : ℕ} {key : ViolationKey} :
    violationAt table runtimeId = some key ↔ ∃ slot entry,
      (start table).candidateSlots[runtimeId]? = some slot ∧
      (start table).slotEntries[slot]? = some entry ∧ entry.key = key := by
  rw [← violation_start, violation, Option.bind_eq_some_iff]
  simp only [Option.map_eq_some_iff]
  exact ⟨fun ⟨slot, hslot, entry, hentry, hkey⟩ => ⟨slot, entry, hslot, hentry, hkey⟩,
    fun ⟨slot, entry, hslot, hentry, hkey⟩ => ⟨slot, hslot, entry, hentry, hkey⟩⟩

theorem slot_unique {slot slot' : ℕ} {entry entry' : RuntimeTargetEntry}
    (h : (start table).slotEntries[slot]? = some entry)
    (h' : (start table).slotEntries[slot']? = some entry') (hkey : entry.key = entry'.key) :
    slot = slot' := by
  have hlt := (List.getElem?_eq_some_iff.1 h).1
  apply (List.getElem?_inj (by rw [List.length_map]; exact hlt) (start_wf table).nodup).1
  rw [List.getElem?_map, List.getElem?_map, h, h', Option.map_some, Option.map_some, hkey]

theorem mem_coveredSoFar {maps : List CoverageMap} {id : Text} :
    (coveredSoFar table maps).contains id = true ↔
      ∃ map ∈ maps, ∃ runtimeId, isHit map runtimeId = true ∧ targetAt table runtimeId = some id := by
  rw [coveredSoFar, Std.ExtTreeSet.contains_ofList, List.contains_iff_mem, List.mem_flatMap]
  refine exists_congr fun map => and_congr_right fun _ => ?_
  rw [coveredTargets, List.mem_filterMap]
  constructor
  · rintro ⟨runtimeId, -, h⟩
    split at h
    · rename_i hhit
      exact ⟨runtimeId, hhit, h⟩
    · exact nomatch h
  · rintro ⟨runtimeId, hhit, h⟩
    exact ⟨runtimeId, List.mem_range.2 (lt_of_isHit hhit), by rw [if_pos hhit, h]⟩

theorem seen_resumed {maps : List CoverageMap} {slot : ℕ} {entry : RuntimeTargetEntry}
    (h : (start table).slotEntries[slot]? = some entry) :
    (resumed table maps).seen slot = (coveredSoFar table maps).contains entry.stableId := by
  have hlt := (List.getElem?_eq_some_iff.1 h).1
  rw [← (start_wf table).seen_length] at hlt
  have hseen := seen_start table slot
  unfold resumed withCoveredTargets seen
  rw [seen, List.getElem?_eq_getElem hlt, Option.getD_some] at hseen
  rw [List.getElem?_zipWith, List.getElem?_eq_getElem hlt, h, hseen]
  rfl

theorem resumed_wf (table : RuntimeIdTable) (maps : List CoverageMap) : (resumed table maps).WF := by
  have h := start_wf table
  refine ⟨h.nodup, h.slot_lt, ?_⟩
  change (List.zipWith _ _ _).length = _
  rw [List.length_zipWith, h.seen_length, Nat.min_self]
  rfl

/-- An execution hits a slot when it hits a probe of its violation. -/
theorem hitsSlot_start {map : CoverageMap} {slot : ℕ} {entry : RuntimeTargetEntry}
    (h : (start table).slotEntries[slot]? = some entry) : HitsSlot (start table) map slot ↔
      ∃ id, isHit map id = true ∧ violationAt table id = some entry.key := by
  constructor
  · rintro ⟨id, hid, hhit⟩
    exact ⟨id, hhit, violationAt_eq_some_iff.2 ⟨slot, entry, hid, h, rfl⟩⟩
  · rintro ⟨id, hhit, hid⟩
    obtain ⟨slot', entry', hslot', hentry', hkey⟩ := violationAt_eq_some_iff.1 hid
    obtain rfl := slot_unique hentry' h hkey
    exact ⟨id, hslot', hhit⟩

/-- What the objective has seen after the executions. -/
theorem seen_run_start (order : IterationOrder) {maps : List CoverageMap} {slot : ℕ}
    {entry : RuntimeTargetEntry} (h : (start table).slotEntries[slot]? = some entry) :
    (run order (start table) maps).1.seen slot = true ↔
      ∃ map ∈ maps, ∃ id, isHit map id = true ∧ violationAt table id = some entry.key := by
  obtain ⟨slots, -, hmem, hrun⟩ := run_spec order (start_wf table) maps
  rw [hrun, seen_report, seen_start, hmem, seen_start]
  · simp only [true_and, Bool.false_eq_true, or_false, hitsSlot_start h]
  · intro slot hslot
    obtain ⟨-, map, -, hhit⟩ := (hmem slot).1 hslot
    exact lt_of_hitsSlot (start_wf table) hhit

theorem seen_resumed_iff {maps : List CoverageMap} {slot : ℕ} {entry : RuntimeTargetEntry}
    (h : (start table).slotEntries[slot]? = some entry) : (resumed table maps).seen slot = true ↔
      ∃ map ∈ maps, ∃ id, isHit map id = true ∧ targetAt table id = some entry.stableId := by
  rw [seen_resumed h, mem_coveredSoFar]

theorem run_slots (order : IterationOrder) (o : SemanticViolationObjective) (h : o.WF)
    (maps : List CoverageMap) : (run order o maps).1.candidateSlots = o.candidateSlots ∧
      (run order o maps).1.slotEntries = o.slotEntries ∧ (run order o maps).1.WF := by
  obtain ⟨slots, -, -, hrun⟩ := run_spec order h maps
  rw [hrun]
  exact ⟨rfl, rfl, h.report slots⟩

/-- Before a restart the objective has seen the violations that were hit, and after it those whose
target was covered. -/
theorem agree_iff {maps : List CoverageMap} (order : IterationOrder) :
    Agree (run order (start table) maps).1 (resumed table maps) ↔
      ∀ runtimeId key, violationAt table runtimeId = some key →
        ((∃ map ∈ maps, ∃ id, isHit map id = true ∧ violationAt table id = some key) ↔
          ∃ map ∈ maps, ∃ id, isHit map id = true ∧ targetAt table id = some key.stableId) := by
  obtain ⟨hcandidates, hentries, -⟩ := run_slots order (start table) (start_wf table) maps
  constructor
  · rintro h runtimeId key hkey
    obtain ⟨slot, entry, hslot, hentry, rfl⟩ := violationAt_eq_some_iff.1 hkey
    have hseen := h.seen runtimeId slot (by rw [hcandidates]; exact hslot)
    rw [Bool.eq_iff_iff, seen_run_start order hentry, seen_resumed_iff hentry] at hseen
    exact hseen
  · intro h
    refine ⟨hcandidates, hentries, fun runtimeId slot hslot => ?_⟩
    rw [hcandidates] at hslot
    have hlt := (start_wf table).slot_lt runtimeId slot hslot
    have hentry := List.getElem?_eq_getElem hlt
    rw [Bool.eq_iff_iff, seen_run_start order hentry, seen_resumed_iff hentry]
    exact h runtimeId _ (violationAt_eq_some_iff.2 ⟨slot, _, hslot, hentry, rfl⟩)

/-- The map of an execution that hits one probe. -/
def onlyHit (runtimeId : ℕ) : CoverageMap := List.replicate runtimeId 0 ++ [1]

theorem isHit_onlyHit {runtimeId id : ℕ} : isHit (onlyHit runtimeId) id = true ↔ id = runtimeId := by
  unfold isHit onlyHit
  rw [List.getElem?_append, List.length_replicate]
  split
  · rename_i hlt
    rw [List.getElem?_replicate, if_pos hlt]
    constructor
    · intro h
      simp at h
    · intro h
      omega
  · by_cases heq : id = runtimeId
    · subst heq
      simp
    · rw [List.getElem?_eq_none (by simp only [List.length_singleton]; omega)]
      constructor
      · intro h
        simp at h
      · exact fun h => absurd h heq

/-- Objectives that find the same executions interesting have seen the same. -/
theorem agree_of_flags {o o' : SemanticViolationObjective} (order order' : IterationOrder)
    (hwf : o.WF) (hwf' : o'.WF) (hcandidates : o.candidateSlots = o'.candidateSlots)
    (hentries : o.slotEntries = o'.slotEntries)
    (h : ∀ map, (run order o [map]).2 = (run order' o' [map]).2) : Agree o o' := by
  have hflag : ∀ (order : IterationOrder) (o : SemanticViolationObjective), o.WF →
      ∀ runtimeId slot, o.candidateSlots[runtimeId]? = some slot →
        (run order o [onlyHit runtimeId]).2 = [!o.seen slot] := by
    intro order o hwf runtimeId slot hslot
    obtain ⟨slots, -, hmem, hstep⟩ := isInteresting_spec order hwf (onlyHit runtimeId)
    have hhits : ∀ slot', HitsSlot o (onlyHit runtimeId) slot' ↔ slot' = slot := by
      intro slot'
      constructor
      · rintro ⟨id, hid, hhit⟩
        rw [isHit_onlyHit.1 hhit, hslot] at hid
        exact (Option.some.inj hid).symm
      · rintro rfl
        exact ⟨runtimeId, hslot, isHit_onlyHit.2 rfl⟩
    have hempty : slots.isEmpty = o.seen slot := by
      rw [Bool.eq_iff_iff, List.isEmpty_iff, List.eq_nil_iff_forall_not_mem]
      simp only [hmem, hhits]
      constructor
      · intro hall
        by_contra hseen
        exact hall slot ⟨Bool.eq_false_iff.2 hseen, rfl⟩
      · rintro hseen slot' ⟨hnew, rfl⟩
        rw [hseen] at hnew
        exact nomatch hnew
    rw [run, hstep, hempty]
    rfl
  refine ⟨hcandidates, hentries, fun runtimeId slot hslot => ?_⟩
  have hboth := h (onlyHit runtimeId)
  rw [hflag order o hwf runtimeId slot hslot,
    hflag order' o' hwf' runtimeId slot (hcandidates ▸ hslot)] at hboth
  simpa using hboth

/-- The findings of a run. -/
theorem pending_run {o : SemanticViolationObjective} {pending : List RuntimeTargetEntry}
    (hpending : o.pending = some pending) (slots : List ℕ) :
    (o.report slots).pending = some (pending ++ slots.filterMap (o.slotEntries[·]?)) := by
  rw [report, hpending]
  rfl

theorem once_start (table : RuntimeIdTable) (order : IterationOrder) (maps : List CoverageMap) :
    ∃ findings, (run order (start table) maps).1.pending = some findings ∧
      (findings.map RuntimeTargetEntry.key).Nodup ∧
      ∀ key, key ∈ findings.map RuntimeTargetEntry.key ↔
        ∃ map ∈ maps, ∃ id, isHit map id = true ∧ violationAt table id = some key := by
  obtain ⟨slots, hnodup, hmem, hrun⟩ := run_spec order (start_wf table) maps
  refine ⟨slots.filterMap ((start table).slotEntries[·]?), ?_, ?_, fun key => ?_⟩
  · rw [hrun, pending_run rfl, List.nil_append]
  · rw [List.map_filterMap]
    refine List.Nodup.filterMap (fun slot slot' key hkey hkey' => ?_) hnodup
    obtain ⟨entry, hentry, rfl⟩ := Option.map_eq_some_iff.1 (Option.mem_def.1 hkey)
    obtain ⟨entry', hentry', heq⟩ := Option.map_eq_some_iff.1 (Option.mem_def.1 hkey')
    exact slot_unique hentry hentry' heq.symm
  · rw [List.mem_map]
    simp only [List.mem_filterMap, hmem, seen_start, true_and]
    constructor
    · rintro ⟨entry, ⟨slot, ⟨map, hmap, hhit⟩, hentry⟩, rfl⟩
      exact ⟨map, hmap, (hitsSlot_start hentry).1 hhit⟩
    · rintro ⟨map, hmap, id, hhit, hid⟩
      obtain ⟨slot, entry, hslot, hentry, rfl⟩ := violationAt_eq_some_iff.1 hid
      exact ⟨entry, ⟨slot, ⟨map, hmap, id, hslot, hhit⟩, hentry⟩, rfl⟩

theorem restart_start (order order' : IterationOrder) {before : List CoverageMap}
    (h : Agree (run order (start table) before).1 (resumed table before)) (after : List CoverageMap) :
    ∃ old new findings, (run order (start table) before).1.pending = some old ∧
      (run order (run order (start table) before).1 after).1.pending = some (old ++ new) ∧
      (run order' (resumed table before) after).1.pending = some findings ∧ new.Perm findings := by
  obtain ⟨-, hentries, hwf⟩ := run_slots order (start table) (start_wf table) before
  obtain ⟨old, hold, -, -⟩ := once_start table order before
  obtain ⟨slots, hnodup, hmem, hrun⟩ := run_spec order hwf after
  obtain ⟨slots', hnodup', hmem', hrun'⟩ := run_spec order' (resumed_wf table before) after
  have hsame : ∀ slot, slot ∈ slots ↔ slot ∈ slots' := by
    simp only [← h.hitsSlot] at hmem'
    exact h.reports (fun slot ⟨map, _, hhit⟩ => ⟨map, hhit⟩) hmem hmem'
  refine ⟨old, slots.filterMap ((start table).slotEntries[·]?),
    slots'.filterMap ((start table).slotEntries[·]?), hold, ?_, ?_, ?_⟩
  · rw [hrun, pending_run hold, hentries]
  · have hempty : (resumed table before).pending = some [] := rfl
    rw [hrun', pending_run hempty, List.nil_append]
    rfl
  · exact ((List.perm_ext_iff_of_nodup hnodup hnodup').2 hsame).filterMap _

/-- **When the objective keeps its promises**: the runtime ids of a violation are exactly those that
carry its target. -/
theorem faithful_iff (table : RuntimeIdTable) : Faithful table ↔
    ∀ runtimeId id key, violationAt table runtimeId = some key →
      (violationAt table id = some key ↔ targetAt table id = some key.stableId) := by
  have horder : Nonempty IterationOrder := ⟨⟨fun m => m.toList, fun _ => List.Perm.refl _⟩⟩
  obtain ⟨order⟩ := horder
  constructor
  · intro h runtimeId id key hkey
    -- one execution that hits `id` only, and a restart
    obtain ⟨hcandidates, hentries, hwf⟩ :=
      run_slots order (start table) (start_wf table) [onlyHit id]
    have hagree := agree_of_flags order order hwf (resumed_wf table [onlyHit id]) hcandidates hentries
      fun map => (h.restart order order [onlyHit id] [map]).1.symm
    simpa [isHit_onlyHit] using (agree_iff order).1 hagree runtimeId key hkey
  · intro h
    have hagree : ∀ order maps, Agree (run order (start table) maps).1 (resumed table maps) := by
      intro order maps
      refine (agree_iff order).2 fun runtimeId key hkey => ?_
      simp only [h runtimeId _ key hkey]
    refine ⟨fun order maps => ?_, once_start table, fun order order' before after => ⟨?_, ?_⟩⟩
    · exact run_dense order (start_wf table) rfl (fun _ => rfl) maps
    · obtain ⟨-, -, hwf⟩ := run_slots order (start table) (start_wf table) before
      exact ((hagree order before).flags order order' hwf (resumed_wf table before) after).symm
    · exact restart_start order order' (hagree order before) after

/-- Two hazards of one target. -/
def twoHazards : RuntimeIdTable :=
  [{ runtimeId := 0, stableId := "t".toList, kind := "hazard_violation".toList,
     hazard := some "division".toList, modeling := "exact".toList },
   { runtimeId := 1, stableId := "t".toList, kind := "hazard_violation".toList,
     hazard := some "modulo".toList, modeling := "exact".toList }]

/-- The first hazard is hit before the restart; the second one is never reported. -/
theorem not_faithful : ¬ Faithful twoHazards := by
  intro h
  have hflags := (h.restart ⟨fun m => m.toList, fun _ => List.Perm.refl _⟩
    ⟨fun m => m.toList, fun _ => List.Perm.refl _⟩ [[1, 0]] [[0, 1]]).1
  exact absurd hflags (by decide +kernel)

end Restart

end SemanticViolationObjective

end SemantiST.Semantic
