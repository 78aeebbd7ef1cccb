import SemantiST.Lib.MapM
import SemantiST.Lib.Spread

/-!
# Bounding the planned prefixes of a task

A task with too many prefixes keeps the first of them and a selection of the rest.  The selections of
the tasks interleave, so that together they reach over the rest.
-/

namespace SemantiST.Goals

open Lib

variable {α : Type}

/-- `MAX_PLANNED_PREFIXES_PER_TASK`. -/
def maxPlannedPrefixesPerTask : ℕ := 96

/-- `_bounded_prefixes`; `none` where it raises (a division by zero, an index out of range). -/
def boundedPrefixes (prefixes : List α) (taskIndex taskCount : ℕ) : Option (List α) :=
  if prefixes.length ≤ maxPlannedPrefixesPerTask then some prefixes
  else do
    let focusedCount := 8
    let remaining := prefixes.drop focusedCount
    let slots := maxPlannedPrefixesPerTask - focusedCount
    let selected ← (List.range slots).mapM fun slot =>
      if slots * taskCount = 0 then none
      else remaining[((slot * taskCount + taskIndex) * remaining.length) / (slots * taskCount)]?
    return prefixes.take focusedCount ++ selected

/-- The last loop of `build_goal_tasks`: for each task `seed_prefixes_total` and `seed_prefixes`. -/
def boundTasks (tasks : List (List α)) : Option (List (ℕ × List α)) :=
  tasks.zipIdx.mapM fun task => do
    let bounded ← boundedPrefixes task.1 task.2 tasks.length
    return (task.1.length, bounded)

/-! ## The places that are taken -/

/-- The places of the prefixes that a task keeps. -/
def keptPlaces (length taskIndex taskCount : ℕ) : List ℕ :=
  List.range 8 ++ (List.range 88).map fun slot =>
    8 + spread (length - 8) (88 * taskCount) (slot * taskCount + taskIndex)

section

variable {length taskIndex taskCount : ℕ}

theorem length_keptPlaces : (keptPlaces length taskIndex taskCount).length = 96 := by
  rw [keptPlaces, List.length_append, List.length_map, List.length_range, List.length_range]

theorem pick_lt {slot : ℕ} (hslot : slot < 88) (hindex : taskIndex < taskCount) :
    slot * taskCount + taskIndex < 88 * taskCount := by
  have hle : (slot + 1) * taskCount ≤ 88 * taskCount := Nat.mul_le_mul_right taskCount hslot
  rw [Nat.add_mul, Nat.one_mul] at hle
  omega

theorem keptPlaces_lt (hlong : 96 < length) (hindex : taskIndex < taskCount) {place : ℕ}
    (hplace : place ∈ keptPlaces length taskIndex taskCount) : place < length := by
  rcases List.mem_append.1 hplace with h | h
  · have h := List.mem_range.1 h
    omega
  · obtain ⟨slot, hslot, rfl⟩ := List.mem_map.1 h
    have hrest : 0 < length - 8 := by omega
    have h := spread_lt hrest (pick_lt (List.mem_range.1 hslot) hindex)
    omega

/-- The places are taken in their order, none of them twice. -/
theorem pairwise_keptPlaces (hlong : 96 < length) (hindex : taskIndex < taskCount) :
    (keptPlaces length taskIndex taskCount).Pairwise (· < ·) := by
  have hcount : 0 < taskCount := Nat.zero_lt_of_lt hindex
  refine List.pairwise_append.2 ⟨List.pairwise_lt_range, ?_, ?_⟩
  · refine List.Pairwise.map _ (fun slot slot' hlt => ?_) List.pairwise_lt_range
    obtain ⟨gap, rfl⟩ := Nat.exists_eq_add_of_lt hlt
    have hpick : (slot + gap + 1) * taskCount + taskIndex =
        slot * taskCount + taskIndex + (gap + 1) * taskCount := by ring
    have hfar : 88 * taskCount ≤ (gap + 1) * taskCount * (length - 8) := by
      calc 88 * taskCount ≤ (length - 8) * ((gap + 1) * taskCount) :=
            Nat.mul_le_mul (by omega) (Nat.le_mul_of_pos_left taskCount (Nat.succ_pos gap))
        _ = (gap + 1) * taskCount * (length - 8) := Nat.mul_comm _ _
    rw [hpick]
    exact Nat.add_lt_add_left (spread_lt_spread (by omega) hfar) 8
  · intro place hplace place' hplace'
    obtain ⟨slot, -, rfl⟩ := List.mem_map.1 hplace'
    have hplace := List.mem_range.1 hplace
    omega

/-- Enough tasks take every place. -/
theorem exists_mem_keptPlaces (hcount : 0 < taskCount) (henough : length - 8 ≤ 88 * taskCount)
    {place : ℕ} (hplace : place < length) :
    ∃ taskIndex < taskCount, place ∈ keptPlaces length taskIndex taskCount := by
  rcases Nat.lt_or_ge place 8 with hfocused | hrest
  · exact ⟨0, hcount, List.mem_append_left _ (List.mem_range.2 hfocused)⟩
  obtain ⟨pick, hpick, hspread⟩ := exists_spread_eq (place - 8) (by omega) henough
  refine ⟨pick % taskCount, Nat.mod_lt pick hcount, List.mem_append_right _ (List.mem_map.2
    ⟨pick / taskCount, List.mem_range.2 ((Nat.div_lt_iff_lt_mul hcount).2 hpick), ?_⟩)⟩
  rw [Nat.div_add_mod', hspread]
  omega

end

/-! ## What a task keeps -/

theorem mapM_range_getElem? (l : List α) {n : ℕ} (hn : n ≤ l.length) :
    (List.range n).mapM (fun place => l[place]?) = some (l.take n) := by
  rw [mapM_eq_some_iff, List.forall₂_iff_get]
  refine ⟨by rw [List.length_range, List.length_take, Nat.min_eq_left hn], fun i hi hi' => ?_⟩
  simp only [List.get_eq_getElem, List.getElem_range, List.getElem_take]
  exact List.getElem?_eq_getElem _

theorem boundedPrefixes_eq {prefixes : List α} {taskIndex taskCount : ℕ}
    (hlong : 96 < prefixes.length) (hcount : 0 < taskCount) :
    boundedPrefixes prefixes taskIndex taskCount =
      (keptPlaces prefixes.length taskIndex taskCount).mapM fun place => prefixes[place]? := by
  have hslots : ¬ 88 * taskCount = 0 := by omega
  rw [boundedPrefixes, if_neg (by unfold maxPlannedPrefixesPerTask; omega), keptPlaces,
    List.mapM_append, mapM_range_getElem? prefixes (by omega), List.mapM_map]
  simp only [maxPlannedPrefixesPerTask, Nat.reduceSub, if_neg hslots, List.getElem?_drop,
    List.length_drop, spread]
  rfl

/-- The places themselves are what is kept of a list of places. -/
theorem boundedPrefixes_range {length taskIndex taskCount : ℕ} (hlong : 96 < length)
    (hindex : taskIndex < taskCount) :
    boundedPrefixes (List.range length) taskIndex taskCount =
      some (keptPlaces length taskIndex taskCount) := by
  rw [boundedPrefixes_eq (by rwa [List.length_range]) (Nat.zero_lt_of_lt hindex),
    List.length_range, mapM_eq_some_iff, List.forall₂_same]
  intro place hplace
  exact List.getElem?_range (keptPlaces_lt hlong hindex hplace)

/-- No task raises. -/
theorem boundedPrefixes_isSome (prefixes : List α) {taskIndex taskCount : ℕ}
    (hindex : taskIndex < taskCount) :
    ∃ bounded, boundedPrefixes prefixes taskIndex taskCount = some bounded := by
  rcases Nat.lt_or_ge 96 prefixes.length with hlong | hshort
  · rw [boundedPrefixes_eq hlong (Nat.zero_lt_of_lt hindex)]
    refine mapM_isSome fun place hplace => ?_
    rw [List.getElem?_eq_getElem (keptPlaces_lt hlong hindex hplace)]
    rfl
  · exact ⟨prefixes, if_pos hshort⟩

/-- The prefixes of all tasks can be bounded. -/
theorem boundTasks_isSome (tasks : List (List α)) : ∃ bounded, boundTasks tasks = some bounded := by
  refine mapM_isSome fun task htask => ?_
  have hindex : task.2 < tasks.length :=
    (List.getElem?_eq_some_iff.1 (List.mk_mem_zipIdx_iff_getElem?.1 htask)).1
  obtain ⟨bounded, hbounded⟩ := boundedPrefixes_isSome task.1 hindex
  rw [hbounded]
  rfl

/-- **A long list is bounded by a spread selection.** A task keeps 96 places, in their order and none
of them twice, with the first 8 among them; and enough tasks keep every place. -/
theorem boundedPrefixes_spread (prefixes : List α) (taskCount : ℕ) (hlong : 96 < prefixes.length)
    (hcount : 0 < taskCount) :
    (∀ taskIndex < taskCount, ∃ places bounded,
      boundedPrefixes (List.range prefixes.length) taskIndex taskCount = some places ∧
      boundedPrefixes prefixes taskIndex taskCount = some bounded ∧
      List.Forall₂ (fun place kept => prefixes[place]? = some kept) places bounded ∧
      bounded.length = 96 ∧ places.Pairwise (· < ·) ∧ List.range 8 <+: places) ∧
    (prefixes.length - 8 ≤ 88 * taskCount → ∀ place < prefixes.length, ∃ taskIndex < taskCount,
      ∃ places, boundedPrefixes (List.range prefixes.length) taskIndex taskCount = some places ∧
        place ∈ places) := by
  constructor
  · intro taskIndex hindex
    obtain ⟨bounded, hbounded⟩ := boundedPrefixes_isSome prefixes hindex
    have heach : List.Forall₂ (fun place kept => prefixes[place]? = some kept)
        (keptPlaces prefixes.length taskIndex taskCount) bounded :=
      mapM_eq_some_iff.1 ((boundedPrefixes_eq hlong hcount).symm.trans hbounded)
    exact ⟨_, bounded, boundedPrefixes_range hlong hindex, hbounded, heach,
      heach.length_eq.symm.trans length_keptPlaces, pairwise_keptPlaces hlong hindex,
      List.prefix_append _ _⟩
  · intro henough place hplace
    obtain ⟨taskIndex, hindex, hmem⟩ := exists_mem_keptPlaces hcount henough hplace
    exact ⟨taskIndex, hindex, _, boundedPrefixes_range hlong hindex, hmem⟩

/-- Two tasks keep every one of 150 prefixes. -/
theorem boundedPrefixes_spread_two : ∃ taskIndex < 2, ∃ places,
    boundedPrefixes (List.range (List.range 150).length) taskIndex 2 = some places ∧ 149 ∈ places :=
  (boundedPrefixes_spread (List.range 150) 2 (by rw [List.length_range]; omega) (by omega)).2
    (by rw [List.length_range]; omega) 149 (by rw [List.length_range]; omega)

end SemantiST.Goals
