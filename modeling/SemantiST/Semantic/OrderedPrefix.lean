import SemantiST.Semantic.CreditRuns
import Mathlib.Order.Bounds.Basic

/-!
# How much of a path a trace shows

The scan is greedy: it matches the next target of the path as soon as it is observed.  No other choice
of events shows more of the path, so more events never show less of it.
-/

namespace SemantiST.Semantic

open Lib SemanticRuntimeMetadata

section Prefix

variable {α : Type} [DecidableEq α]

/-! ## The scan -/

/-- The loop of `ordered_prefix_len` as it is written, with its `break`. -/
def orderedPrefixScan (path : List α) : ℕ → List α → ℕ
  | matched, [] => matched
  | matched, target :: observed =>
    if path[matched]? = some target then
      if matched + 1 = path.length then matched + 1
      else orderedPrefixScan path (matched + 1) observed
    else orderedPrefixScan path matched observed

/-- At the end of the path nothing more matches, so that the `break` only saves time. -/
theorem orderedPrefixScan_eq (path observed : List α) :
    orderedPrefixScan path 0 observed = orderedPrefixLen path observed := by
  have hend : ∀ observed : List α, observed.foldl (fun matched target =>
      if path[matched]? = some target then matched + 1 else matched) path.length = path.length := by
    intro observed
    induction observed with
    | nil => rfl
    | cons target observed ih =>
      rw [List.foldl_cons, List.getElem?_eq_none le_rfl, if_neg nofun]
      exact ih
  have hall : ∀ (observed : List α) (matched : ℕ), orderedPrefixScan path matched observed =
      observed.foldl (fun matched target =>
        if path[matched]? = some target then matched + 1 else matched) matched := by
    intro observed
    induction observed with
    | nil => intro matched; rfl
    | cons target observed ih =>
      intro matched
      rw [orderedPrefixScan, List.foldl_cons]
      by_cases htarget : path[matched]? = some target
      · rw [if_pos htarget, if_pos htarget]
        by_cases hlast : matched + 1 = path.length
        · rw [if_pos hlast, hlast, hend]
        · rw [if_neg hlast, ih]
      · rw [if_neg htarget, if_neg htarget, ih]
  exact hall observed 0

theorem orderedPrefixLen_le_length (path observed : List α) :
    orderedPrefixLen path observed ≤ path.length := by
  induction observed using List.reverseRecOn with
  | nil => exact Nat.zero_le _
  | append_singleton observed a ih =>
    rw [orderedPrefixLen_concat]
    split
    · rename_i ha
      exact (List.getElem?_eq_some_iff.1 ha).1
    · exact ih

/-- What a trace shows in any way, the scan counts. -/
theorem le_orderedPrefixLen {path observed : List α} {k : ℕ} (hk : k ≤ path.length)
    (hshown : (path.take k).Sublist observed) : k ≤ orderedPrefixLen path observed := by
  induction observed using List.reverseRecOn generalizing k with
  | nil =>
    have hlen := hshown.length_le
    rw [List.length_take, List.length_nil] at hlen
    omega
  | append_singleton observed a ih =>
    have hmono : orderedPrefixLen path observed ≤ orderedPrefixLen path (observed ++ [a]) := by
      rw [orderedPrefixLen_concat]
      split
      · exact Nat.le_succ _
      · exact le_rfl
    cases k with
    | zero => exact Nat.zero_le _
    | succ j =>
      rw [List.take_succ_eq_append_getElem hk] at hshown
      obtain ⟨shown, last, hsplit, hearlier, hlast⟩ := List.sublist_append_iff.1 hshown
      rcases List.sublist_singleton.1 hlast with rfl | rfl
      -- the last event shows nothing of the path
      · rw [List.append_nil] at hsplit
        rw [← hsplit, ← List.take_succ_eq_append_getElem hk] at hearlier
        exact (ih hk hearlier).trans hmono
      -- the last event shows the last of these targets
      · obtain ⟨rfl, ha⟩ := List.append_inj' hsplit rfl
        have hj := ih (Nat.le_of_lt hk) hearlier
        rcases hj.lt_or_eq with hlt | heq
        · exact Nat.lt_of_lt_of_le hlt hmono
        · rw [orderedPrefixLen_concat, ← heq, List.getElem?_eq_getElem hk, (List.cons.inj ha).1,
            if_pos rfl]

theorem orderedPrefixLen_mono {path observed observed' : List α} (h : observed.Sublist observed') :
    orderedPrefixLen path observed ≤ orderedPrefixLen path observed' :=
  le_orderedPrefixLen (orderedPrefixLen_le_length path observed)
    ((take_orderedPrefixLen_sublist path observed).trans h)

end Prefix

/-! ## Interned targets -/

/-- The scan over indices, where an index stands for a target of the path exactly when it is the
index of that target. -/
theorem orderedPrefixLenIndexed_map {path : List Text} {index : Text → Option ℕ}
    {name : ℕ → Option Text}
    (hindex : ∀ target ∈ path, ∀ i, index target = some i ↔ name i = some target)
    (ordered : List ℕ) : orderedPrefixLenIndexed (path.map index) ordered =
      orderedPrefixLen path (ordered.filterMap name) := by
  unfold orderedPrefixLenIndexed
  induction ordered using List.reverseRecOn with
  | nil => rfl
  | append_singleton ordered i ih =>
    rw [List.map_append, List.map_singleton, orderedPrefixLen_concat, ih, List.filterMap_append,
      List.getElem?_map]
    have hmem : ∀ target, path[orderedPrefixLen path (ordered.filterMap name)]? = some target →
        target ∈ path := fun target => List.mem_of_getElem?
    cases hname : name i with
    | none =>
      rw [List.filterMap_cons_none hname, List.filterMap_nil, List.append_nil, if_neg]
      intro hpath
      obtain ⟨target, htarget, hi⟩ := Option.map_eq_some_iff.1 hpath
      have hi := (hindex target (hmem target htarget) i).1 hi
      rw [hname] at hi
      cases hi
    | some target' =>
      rw [List.filterMap_cons_some hname, List.filterMap_nil, orderedPrefixLen_concat]
      congr 1
      rw [Option.map_eq_some_iff, eq_iff_iff]
      constructor
      · rintro ⟨target, htarget, hi⟩
        have hi := (hindex target (hmem target htarget) i).1 hi
        rw [htarget, ← hi, hname]
      · intro htarget
        exact ⟨target', htarget, (hindex target' (hmem target' htarget) i).2 hname⟩

namespace SemanticRuntimeMetadata

/-- The index of a name of the table: its place, in 32 bits. -/
theorem setTargetNames_index (s : SemanticRuntimeMetadata) {names : List Text}
    (hdistinct : names.Nodup) (name : Text) (index : ℕ) :
    (s.setTargetNames names).targetIndices[name]? = some index ↔
      ∃ i, names[i]? = some name ∧ i % (u32Max + 1) = index := by
  have hassigned : (s.setTargetNames names).targetIndices =
      insertAll ∅ (names.zipIdx.map fun p => (p.1, p.2 % (u32Max + 1))) := by
    rw [insertAll, List.foldl_map]
    rfl
  have hkeys : ((names.zipIdx.map fun p => (p.1, p.2 % (u32Max + 1))).map Prod.fst).Nodup := by
    rw [List.map_map, show Prod.fst ∘ (fun p : Text × ℕ => (p.1, p.2 % (u32Max + 1))) = Prod.fst
      from rfl, List.zipIdx_map_fst]
    exact hdistinct
  rw [hassigned, getElem?_insertAll, Std.ExtTreeMap.getElem?_empty, Option.or_none]
  constructor
  · intro h
    obtain ⟨⟨name', i⟩, hp, heq⟩ := List.mem_map.1 (mem_of_lastValue h)
    obtain ⟨rfl, hi⟩ := Prod.mk.inj heq
    exact ⟨i, List.mk_mem_zipIdx_iff_getElem?.1 hp, hi⟩
  · rintro ⟨i, hi, rfl⟩
    exact lastValue_of_mem hkeys
      (List.mem_map.2 ⟨(name, i), List.mk_mem_zipIdx_iff_getElem?.2 hi, rfl⟩)

/-- The index of a name among the first `2 ^ 32` of the table is its place. -/
theorem setTargetNames_index_iff (s : SemanticRuntimeMetadata) {names : List Text}
    (hdistinct : names.Nodup) {name : Text}
    (hplace : ∀ i, names[i]? = some name → i ≤ u32Max) (index : ℕ) :
    (s.setTargetNames names).targetIndices[name]? = some index ↔ names[index]? = some name := by
  rw [s.setTargetNames_index hdistinct]
  constructor
  · rintro ⟨i, hi, rfl⟩
    rwa [Nat.mod_eq_of_lt (Nat.lt_succ_of_le (hplace i hi))]
  · intro hindex
    exact ⟨index, hindex, Nat.mod_eq_of_lt (Nat.lt_succ_of_le (hplace index hindex))⟩

end SemanticRuntimeMetadata

/-! ## Main results -/

section Optimal

open SemanticRuntimeMetadata

/-- **The scan is optimal.** What it counts is the most of the path that a trace shows; more events
never show less; and the scan over the indices of a table of distinct names counts the same, when no
target of the path stands after the first `2 ^ 32` of the names. -/
theorem orderedPrefixLen_optimal (path : List Text) :
    (∀ observed, IsGreatest {k | k ≤ path.length ∧ (path.take k).Sublist observed}
      (orderedPrefixScan path 0 observed)) ∧
    (∀ observed observed' : List Text, observed.Sublist observed' →
      orderedPrefixScan path 0 observed ≤ orderedPrefixScan path 0 observed') ∧
    (∀ (s : SemanticRuntimeMetadata) (names : List Text), names.Nodup →
      (∀ target ∈ path, ∀ i, names[i]? = some target → i ≤ u32Max) → ∀ ordered : List ℕ,
        orderedPrefixLenIndexed ((s.setTargetNames names).indexPath path) ordered =
          orderedPrefixScan path 0 (ordered.filterMap fun i => names[i]?)) := by
  simp only [orderedPrefixScan_eq]
  refine ⟨fun observed => ⟨⟨orderedPrefixLen_le_length path observed,
    take_orderedPrefixLen_sublist path observed⟩, fun k hk => le_orderedPrefixLen hk.1 hk.2⟩,
    fun observed observed' h => orderedPrefixLen_mono h, fun s names hdistinct hplace ordered => ?_⟩
  exact orderedPrefixLenIndexed_map (fun target htarget =>
    s.setTargetNames_index_iff hdistinct (hplace target htarget)) ordered

/-- Of the path `b`, `x`, `a` a trace with `x` unknown shows `b` only. -/
theorem orderedPrefixLen_optimal_unknown :
    orderedPrefixLenIndexed ((((new { tasks := [] } []).setTargetNames
      ["a".toList, "b".toList]).indexPath ["b".toList, "x".toList, "a".toList])) [0, 1, 7, 0] = 1 :=
  ((orderedPrefixLen_optimal ["b".toList, "x".toList, "a".toList]).2.2 (new { tasks := [] } [])
    ["a".toList, "b".toList] (by decide) (fun target _ i hi => by
      have hlt := (List.getElem?_eq_some_iff.1 hi).1
      exact (Nat.le_of_lt hlt).trans (by decide)) [0, 1, 7, 0]).trans (by decide)

/-- The table of the first `n` numerals. -/
def numeralTable (n : ℕ) : List Text := (List.range n).map decimal

theorem nodup_numeralTable (n : ℕ) : (numeralTable n).Nodup :=
  List.nodup_range.map decimal_injective

theorem getElem?_numeralTable {n i : ℕ} (h : i < n) : (numeralTable n)[i]? = some (decimal i) := by
  rw [numeralTable, List.getElem?_map, List.getElem?_range h, Option.map_some]

/-- In a table with one name too many the last name has the index of the first. -/
theorem orderedPrefixLen_numeralTable (s : SemanticRuntimeMetadata) :
    orderedPrefixLenIndexed ((s.setTargetNames (numeralTable (u32Max + 2))).indexPath
      [decimal (u32Max + 1)]) [0] = 1 ∧
    orderedPrefixScan [decimal (u32Max + 1)] 0
      ([0].filterMap fun i => (numeralTable (u32Max + 2))[i]?) = 0 := by
  have hfirst : (numeralTable (u32Max + 2))[0]? = some (decimal 0) := getElem?_numeralTable (by omega)
  have hlast : (numeralTable (u32Max + 2))[u32Max + 1]? = some (decimal (u32Max + 1)) :=
    getElem?_numeralTable (by omega)
  have hindex : (s.setTargetNames (numeralTable (u32Max + 2))).targetIndices[
      decimal (u32Max + 1)]? = some 0 :=
    (s.setTargetNames_index (nodup_numeralTable _) _ _).2 ⟨u32Max + 1, hlast, Nat.mod_self _⟩
  constructor
  · rw [SchedulerCore.indexPath, List.map_singleton, hindex]
    rfl
  · have hne : [decimal (u32Max + 1)][0]? ≠ some (decimal 0) := by
      intro h
      have h := decimal_injective (Option.some.inj h)
      omega
    rw [List.filterMap_cons_some hfirst, List.filterMap_nil, orderedPrefixScan, if_neg hne]
    rfl

/-- Over `2 ^ 32 + 1` names the two scans differ: the index of a name is cut to 32 bits. -/
theorem not_indexed_agrees_numeralTable :
    ¬ ∀ (s : SemanticRuntimeMetadata) (names path : List Text), names.Nodup → ∀ ordered : List ℕ,
      (∀ i ∈ ordered, i < names.length) →
        orderedPrefixLenIndexed ((s.setTargetNames names).indexPath path) ordered =
          orderedPrefixScan path 0 (ordered.filterMap fun i => names[i]?) := by
  intro h
  have hrange : ∀ i ∈ [0], i < (numeralTable (u32Max + 2)).length := by
    intro i hi
    rw [List.mem_singleton.1 hi, numeralTable, List.length_map, List.length_range]
    omega
  have h := h (new { tasks := [] } []) _ [decimal (u32Max + 1)]
    (nodup_numeralTable (u32Max + 2)) [0] hrange
  obtain ⟨hindexed, hstrings⟩ := orderedPrefixLen_numeralTable (new { tasks := [] } [])
  rw [hindexed, hstrings] at h
  cases h

end Optimal

end SemantiST.Semantic
