import SemantiST.Mutation.Cycles

/-!
# Steps of mutators

What every operator on cycles keeps: names and types come from the old cycles, no cycle is empty, and their number stays
bounded.
-/

namespace SemantiST.Mutation

open Lib Lib.Drawn Semantic

/-! ## Sequences of cycles -/

section Sequences

variable {lists : List (List StRecord)} {cycles : CycleMap} {id : ℕ} {records : List StRecord}

theorem numbered_concat : numbered (lists ++ [records]) = (numbered lists).insert lists.length records := by
  rw [numbered, List.zipIdx_append, List.map_append, insertAll_append]
  simp [numbered, insertAll]

/-- **The numbers are the places.** -/
theorem getElem?_numbered : (numbered lists)[id]? = lists[id]? := by
  induction lists using List.reverseRecOn with
  | nil => simp [numbered]
  | append_singleton lists records ih =>
    rw [numbered_concat, getElem?_insert_eq, ih, List.getElem?_append]
    by_cases hlast : lists.length = id
    · rw [if_pos hlast, if_neg (by omega), hlast, Nat.sub_self]
      rfl
    · rw [if_neg hlast]
      split
      · rfl
      · rw [List.getElem?_eq_none (by omega), List.getElem?_eq_none (by simp; omega)]

theorem mem_numbered : id ∈ numbered lists ↔ id < lists.length := by
  rw [Std.ExtTreeMap.mem_iff_isSome_getElem?, getElem?_numbered]
  simp

theorem size_numbered : (numbered lists).size = lists.length := by
  induction lists using List.reverseRecOn with
  | nil => simp [numbered]
  | append_singleton lists records ih =>
    have hnew : lists.length ∉ numbered lists := by
      rw [mem_numbered]
      omega
    rw [numbered_concat, Std.ExtTreeMap.size_insert, List.length_append, ih]
    exact if_neg hnew

theorem mem_cycleLists : records ∈ cycleLists cycles ↔ ∃ id : ℕ, cycles[id]? = some records := by
  constructor
  · intro h
    obtain ⟨⟨id, records'⟩, hmem, rfl⟩ := List.mem_map.1 h
    exact ⟨id, Std.ExtTreeMap.mem_toList_iff_getElem?_eq_some.1 hmem⟩
  · rintro ⟨id, h⟩
    exact List.mem_map.2 ⟨(id, records), Std.ExtTreeMap.mem_toList_iff_getElem?_eq_some.2 h, rfl⟩

theorem length_cycleLists : (cycleLists cycles).length = cycles.size := by
  rw [cycleLists, List.length_map, Std.ExtTreeMap.length_toList]

theorem exists_of_mem_keys (h : id ∈ cycles.keys) : ∃ records, cycles[id]? = some records :=
  Option.isSome_iff_exists.1 (Std.ExtTreeMap.mem_iff_isSome_getElem?.1 (Std.ExtTreeMap.mem_keys.1 h))

theorem size_eq_zero_of_keys (h : cycles.keys.isEmpty = true) : cycles.size = 0 := by
  rw [← Std.ExtTreeMap.length_keys, List.isEmpty_iff.1 h, List.length_nil]

theorem keys_ne_nil (h : ¬ cycles.keys.isEmpty = true) : cycles.keys ≠ [] := fun hnil => h (hnil ▸ rfl)

theorem mem_insert_iff {k : ℕ} : k ∈ cycles.insert id records ↔ k = id ∨ k ∈ cycles := by
  rw [Std.ExtTreeMap.mem_insert, Std.LawfulEqCmp.compare_eq_iff_eq, eq_comm]

theorem nextId_le : nextId cycles ≤ u64Max := Nat.le_of_lt_succ (Nat.mod_lt _ (Nat.succ_pos _))

theorem size_pos_of_getElem? (h : cycles[id]? = some records) : 0 < cycles.size := by
  have hmem : id ∈ cycles.keys := by
    rw [Std.ExtTreeMap.mem_keys, Std.ExtTreeMap.mem_iff_isSome_getElem?, h]
    rfl
  rw [← Std.ExtTreeMap.length_keys]
  exact List.length_pos_of_mem hmem

end Sequences

/-! ## What mutators keep -/

/-- A cycle has the record. -/
def InCycle (seed : CycleAwareSeed) (record : StRecord) : Prop :=
  ∃ (id : ℕ) (records : List StRecord), seed.cycles[id]? = some records ∧ record ∈ records

/-- A mutator can use the record: one of a cycle, or without cycles a shared one or the default. -/
def Available (seed : CycleAwareSeed) (record : StRecord) : Prop :=
  InCycle seed record ∨ (seed.cycles.size = 0 ∧ (record ∈ seed.shared ∨ record = defaultRecord))

/-- No cycle is without records. -/
def Filled (seed : CycleAwareSeed) : Prop :=
  ∀ (id : ℕ) (records : List StRecord), seed.cycles[id]? = some records → records ≠ []

/-- The new seed is one that a mutator makes of the old one. -/
structure Step (maxCycles : ℕ) (old new : CycleAwareSeed) : Prop where
  shared : Rewritten old.shared new.shared
  filled : Filled new
  origin : ∀ record, InCycle new record → ∃ record', Available old record' ∧ Rewrite record' record
  count : new.cycles.size ≤ max old.cycles.size maxCycles
  numbers : ∀ id : ℕ, id ∈ new.cycles → id ∈ old.cycles ∨ id ≤ u64Max ∨ id < max old.cycles.size maxCycles
  kept : 0 < old.cycles.size → 0 < new.cycles.size

section Steps

variable {maxCycles : ℕ} {old new new' : CycleAwareSeed} {id : ℕ} {records : List StRecord}

theorem Rewritten.exists_of_mem {old new : List StRecord} (h : Rewritten old new) {record : StRecord}
    (hrecord : record ∈ new) : ∃ record' ∈ old, Rewrite record' record := by
  induction h with
  | nil => cases hrecord
  | cons hhead _ ih =>
    rcases List.mem_cons.1 hrecord with rfl | hrecord
    · exact ⟨_, List.mem_cons_self, hhead⟩
    · obtain ⟨record', hmem, hrewrite⟩ := ih hrecord
      exact ⟨record', List.mem_cons_of_mem _ hmem, hrewrite⟩

theorem Rewritten.ne_nil {old new : List StRecord} (h : Rewritten old new) (hold : old ≠ []) : new ≠ [] := by
  cases h with
  | nil => exact absurd rfl hold
  | cons _ _ => exact List.cons_ne_nil _ _

theorem Step.trans (h : Step maxCycles old new) (h' : Step maxCycles new new') : Step maxCycles old new' := by
  refine ⟨h.shared.trans h'.shared, h'.filled, ?_, ?_, ?_, fun hpos => h'.kept (h.kept hpos)⟩
  · intro record hrecord
    obtain ⟨record', havailable, hrewrite⟩ := h'.origin record hrecord
    rcases havailable with hcycle | ⟨hsize, hshared | rfl⟩
    · obtain ⟨record'', havailable', hrewrite'⟩ := h.origin record' hcycle
      exact ⟨record'', havailable', hrewrite'.trans hrewrite⟩
    · have hzero : old.cycles.size = 0 := by
        by_contra hne
        have := h.kept (Nat.pos_of_ne_zero hne)
        omega
      obtain ⟨record'', hmem, hrewrite'⟩ := h.shared.exists_of_mem hshared
      exact ⟨record'', Or.inr ⟨hzero, Or.inl hmem⟩, hrewrite'.trans hrewrite⟩
    · have hzero : old.cycles.size = 0 := by
        by_contra hne
        have := h.kept (Nat.pos_of_ne_zero hne)
        omega
      exact ⟨defaultRecord, Or.inr ⟨hzero, Or.inr rfl⟩, hrewrite⟩
  · have := h.count
    have := h'.count
    omega
  · intro id hid
    have := h.count
    rcases h'.numbers id hid with hold | hlast | hcount
    · exact h.numbers id hold
    · exact Or.inr (Or.inl hlast)
    · exact Or.inr (Or.inr (by omega))

/-- The records are those of an old cycle with other values. -/
def CopyOf (old : CycleAwareSeed) (records : List StRecord) : Prop :=
  ∃ (id : ℕ) (records' : List StRecord), old.cycles[id]? = some records' ∧ Rewritten records' records

theorem copyOf_self (h : old.cycles[id]? = some records) : CopyOf old records :=
  ⟨id, records, h, Rewritten.refl records⟩

/-- A seed of which every cycle is a copy. -/
theorem step_of_copies (hfilled : Filled old) (hshared : Rewritten old.shared new.shared)
    (hcopies : ∀ (id : ℕ) (records : List StRecord), new.cycles[id]? = some records → CopyOf old records)
    (hcount : new.cycles.size ≤ max old.cycles.size maxCycles)
    (hnumbers : ∀ id : ℕ, id ∈ new.cycles → id ∈ old.cycles ∨ id ≤ u64Max ∨ id < max old.cycles.size maxCycles)
    (hkept : 0 < old.cycles.size → 0 < new.cycles.size) : Step maxCycles old new := by
  refine ⟨hshared, ?_, ?_, hcount, hnumbers, hkept⟩
  · intro id records hrecords
    obtain ⟨id', records', hold, hrewritten⟩ := hcopies id records hrecords
    exact hrewritten.ne_nil (hfilled id' records' hold)
  · rintro record ⟨id, records, hrecords, hmem⟩
    obtain ⟨id', records', hold, hrewritten⟩ := hcopies id records hrecords
    obtain ⟨record', hmem', hrewrite⟩ := hrewritten.exists_of_mem hmem
    exact ⟨record', Or.inl ⟨id', records', hold, hmem'⟩, hrewrite⟩

theorem Step.refl (hfilled : Filled old) : Step maxCycles old old :=
  step_of_copies hfilled (Rewritten.refl _) (fun _ _ h => copyOf_self h) (Nat.le_max_left _ _) (fun _ => Or.inl)
    fun h => h

/-- A copy is inserted, in the place of a cycle or where there is room. -/
theorem step_insert (hfilled : Filled old) (hcopy : CopyOf old records)
    (hcount : id ∈ old.cycles ∨ (old.cycles.size < maxCycles ∧ id ≤ u64Max)) :
    Step maxCycles old { old with cycles := old.cycles.insert id records } := by
  refine step_of_copies hfilled (Rewritten.refl _) ?_ ?_ ?_ ?_
  · intro id' records' h
    dsimp only at h
    rw [getElem?_insert_eq] at h
    split at h
    · obtain rfl := Option.some.inj h
      exact hcopy
    · exact copyOf_self h
  · dsimp only
    rw [Std.ExtTreeMap.size_insert]
    split
    · exact Nat.le_max_left _ _
    · rename_i hnew
      have := (hcount.resolve_left hnew).1
      omega
  · intro k hk
    rcases mem_insert_iff.1 hk with rfl | hk
    · exact hcount.imp (fun h => h) fun h => Or.inl h.2
    · exact Or.inl hk
  · intro hpos
    dsimp only
    rw [Std.ExtTreeMap.size_insert]
    split <;> omega

/-- Copies are numbered anew. -/
theorem step_numbered (hfilled : Filled old) {lists : List (List StRecord)} (hcopies : ∀ l ∈ lists, CopyOf old l)
    (hcount : lists.length ≤ max old.cycles.size maxCycles) (hkept : 0 < old.cycles.size → 0 < lists.length) :
    Step maxCycles old { old with cycles := numbered lists } := by
  refine step_of_copies hfilled (Rewritten.refl _) ?_ ?_ ?_ ?_
  · intro id records h
    dsimp only at h
    rw [getElem?_numbered] at h
    exact hcopies records (List.mem_of_getElem? h)
  · dsimp only
    rwa [size_numbered]
  · intro id hid
    exact Or.inr (Or.inr ((mem_numbered.1 hid).trans_le hcount))
  · dsimp only
    rwa [size_numbered]

theorem copyOf_cycleLists {l : List StRecord} (h : l ∈ cycleLists old.cycles) : CopyOf old l := by
  obtain ⟨id, hid⟩ := mem_cycleLists.1 h
  exact copyOf_self hid

theorem step_normalizeCycleIds (hfilled : Filled old) : Step maxCycles old (normalizeCycleIds old) := by
  apply step_numbered hfilled
  · exact fun l h => copyOf_cycleLists h
  · rw [length_cycleLists]
    exact Nat.le_max_left _ _
  · rw [length_cycleLists]
    exact (fun h => h)

end Steps

/-! ### Operators -/

section Operators

variable {maxCycles : ℕ} {seed : CycleAwareSeed} {id : ℕ} {records : List StRecord}

theorem mutateRecordAt_rewritten (records : List StRecord) (index : ℕ) :
    Always (Rewritten records) (mutateRecordAt records index) := by
  unfold mutateRecordAt
  split
  · exact always_pure (Rewritten.refl records)
  · rename_i record hrecord
    exact (mutateRecord_rewrite record).map fun record' h => rewritten_set hrecord h

theorem setBool_rewrite (value : Text → Option Bool) (record : StRecord) : Rewrite record (setBool value record) := by
  unfold setBool
  split
  · split
    · rename_i one _
      apply rewrite_value
      cases one <;> decide
    · exact Rewrite.refl record
  · exact Rewrite.refl record

/-- The records of a number, or none. -/
theorem copyOf_getD (h : id ∈ seed.cycles.keys) {records : List StRecord}
    (hrewritten : Rewritten (seed.cycles[id]?.getD []) records) : CopyOf seed records := by
  obtain ⟨records', hrecords⟩ := exists_of_mem_keys h
  rw [hrecords] at hrewritten
  exact ⟨id, records', hrecords, hrewritten⟩

theorem locate_mem {entries : List (ℕ × List StRecord)} {index place : ℕ} (h : locate entries index = some (id, place)) :
    id ∈ entries.map Prod.fst := by
  induction entries generalizing index with
  | nil => cases h
  | cons entry entries ih =>
    rcases entry with ⟨id', records⟩
    unfold locate at h
    split at h
    · cases h
      exact List.mem_cons_self
    · exact List.mem_cons_of_mem _ (ih h)

theorem mem_keys_of_mem_toList (h : id ∈ seed.cycles.toList.map Prod.fst) : id ∈ seed.cycles.keys := by
  obtain ⟨⟨id', records⟩, hmem, rfl⟩ := List.mem_map.1 h
  rw [Std.ExtTreeMap.mem_keys, Std.ExtTreeMap.mem_iff_isSome_getElem?,
    Std.ExtTreeMap.mem_toList_iff_getElem?_eq_some.1 hmem]
  rfl

theorem cycleMutateValue_step (hfilled : Filled seed) : Always (Step maxCycles seed) (cycleMutateValue seed) := by
  unfold cycleMutateValue
  apply always_ite
  · intro _
    exact always_pure (Step.refl hfilled)
  · intro _
    refine always_bind fun index => always_ite ?_ ?_
    · intro _
      refine (mutateRecordAt_rewritten seed.shared index).map fun shared hshared => ?_
      exact step_of_copies hfilled hshared (fun _ _ h => copyOf_self h) (Nat.le_max_left _ _) (fun _ => Or.inl)
        fun h => h
    · intro _
      split
      · exact always_pure (Step.refl hfilled)
      · rename_i id place hlocate
        have hid := mem_keys_of_mem_toList (locate_mem hlocate)
        refine (mutateRecordAt_rewritten _ place).map fun records hrecords => ?_
        exact step_insert hfilled (copyOf_getD hid hrecords) (Or.inl (Std.ExtTreeMap.mem_keys.1 hid))

theorem cycleCloneCycle_step (hfilled : Filled seed) :
    Always (Step maxCycles seed) (cycleCloneCycle maxCycles seed) := by
  unfold cycleCloneCycle
  refine always_ite ?_ fun hroom => always_ite ?_ fun hkeys => ?_
  · intro _
    exact always_pure (Step.refl hfilled)
  · intro _
    exact always_pure (Step.refl hfilled)
  · refine (always_choose_mem (keys_ne_nil hkeys)).bind fun source hsource => always_bind fun place => ?_
    refine (mutateRecordAt_rewritten _ place).bind fun cloned hcloned => always_pure ?_
    exact step_insert hfilled (copyOf_getD hsource hcloned) (Or.inr ⟨by omega, nextId_le⟩)

theorem cycleDeleteCycle_step (hfilled : Filled seed) : Always (Step maxCycles seed) (cycleDeleteCycle seed) := by
  unfold cycleDeleteCycle
  apply always_ite
  · intro _
    exact always_pure (Step.refl hfilled)
  · intro hmany
    refine always_map fun id => step_of_copies hfilled (Rewritten.refl _) ?_ ?_ ?_ ?_
    · intro id' records h
      dsimp only at h
      rw [Std.ExtTreeMap.getElem?_erase] at h
      split at h
      · cases h
      · exact copyOf_self h
    · exact Std.ExtTreeMap.size_erase_le.trans (Nat.le_max_left _ _)
    · exact fun k hk => Or.inl (Std.ExtTreeMap.mem_of_mem_erase hk)
    · intro _
      have hsize : seed.cycles.size ≤ (seed.cycles.erase id).size + 1 := Std.ExtTreeMap.size_le_size_erase
      dsimp only
      omega

theorem cycleInsertCycle_step (hfilled : Filled seed) :
    Always (Step maxCycles seed) (cycleInsertCycle maxCycles seed) := by
  have hreset (records : List StRecord) : Rewritten records
      (records.map (setBool fun name => if isResetLike name then some false else none)) :=
    rewritten_map (setBool_rewrite _)
  unfold cycleInsertCycle
  refine always_ite ?_ fun hroom => ?_
  · intro _
    exact always_pure (Step.refl hfilled)
  · dsimp only
    split
    · rename_i hkeys
      -- without cycles the shared records are copied
      have hsize := size_eq_zero_of_keys hkeys
      have hnone (id : ℕ) : seed.cycles[id]? = none := by
        rw [Std.ExtTreeMap.eq_empty_iff_size_eq_zero.2 hsize]
        exact Std.ExtTreeMap.getElem?_empty
      apply always_pure
      have horigin (record : StRecord) (h : record ∈ if seed.shared.isEmpty = true then [defaultRecord] else seed.shared) :
          Available seed record := by
        refine Or.inr ⟨hsize, ?_⟩
        split at h
        · exact Or.inr (List.mem_singleton.1 h)
        · exact Or.inl h
      have hne : (if seed.shared.isEmpty = true then [defaultRecord] else seed.shared) ≠ [] := by
        split
        · exact List.cons_ne_nil _ _
        · rename_i hshared
          exact fun hnil => hshared (hnil ▸ rfl)
      have hget {id : ℕ} {records : List StRecord} (h : (seed.cycles.insert (nextId seed.cycles)
          ((if seed.shared.isEmpty = true then [defaultRecord] else seed.shared).map
            (setBool fun name => if isResetLike name then some false else none)))[id]? = some records) :
          Rewritten (if seed.shared.isEmpty = true then [defaultRecord] else seed.shared) records := by
        rw [getElem?_insert_eq, hnone] at h
        split at h
        · obtain rfl := Option.some.inj h
          exact hreset _
        · cases h
      refine ⟨Rewritten.refl _, ?_, ?_, ?_, ?_, fun hpos => absurd hpos (by omega)⟩
      · exact fun id records h => (hget h).ne_nil hne
      · rintro record ⟨id, records, h, hmem⟩
        obtain ⟨record', hmem', hrewrite⟩ := (hget h).exists_of_mem hmem
        exact ⟨record', horigin record' hmem', hrewrite⟩
      · have hsize' : (seed.cycles.insert (nextId seed.cycles)
          ((if seed.shared.isEmpty = true then [defaultRecord] else seed.shared).map
            (setBool fun name => if isResetLike name then some false else none))).size ≤ seed.cycles.size + 1 :=
          Std.ExtTreeMap.size_insert_le
        dsimp only
        omega
      · intro k hk
        rcases mem_insert_iff.1 hk with rfl | hk
        · exact Or.inr (Or.inl nextId_le)
        · exact Or.inl hk
    · rename_i hkeys
      refine ((always_choose_mem (keys_ne_nil hkeys)).map fun source hsource => ?_).bind (P := CopyOf seed) fun copied hcopied => always_pure ?_
      · exact copyOf_getD hsource (Rewritten.refl _)
      · obtain ⟨id, records, hrecords, hrewritten⟩ := hcopied
        have hne := hrewritten.ne_nil (hfilled id records hrecords)
        rw [if_neg fun hempty => hne (List.isEmpty_iff.1 hempty)]
        exact step_insert hfilled ⟨id, records, hrecords, hrewritten.trans (hreset copied)⟩
          (Or.inr ⟨by omega, nextId_le⟩)

theorem cycleResetLikeCycle_step (hfilled : Filled seed) : Always (Step maxCycles seed) (cycleResetLikeCycle seed) := by
  unfold cycleResetLikeCycle
  refine always_ite ?_ fun hkeys => ?_
  · intro _
    exact always_pure (Step.refl hfilled)
  · refine (always_choose_mem (keys_ne_nil hkeys)).map fun id hid => ?_
    exact step_insert hfilled (copyOf_getD hid (rewritten_map (setBool_rewrite _)))
      (Or.inl (Std.ExtTreeMap.mem_keys.1 hid))

theorem setBools_step (hfilled : Filled seed) (value : ℕ → Text → Option Bool) :
    Step maxCycles seed (setBools seed value) := by
  refine step_of_copies hfilled (Rewritten.refl _) ?_ ?_ ?_ ?_
  · intro id records h
    rw [setBools] at h
    dsimp only at h
    rw [Std.ExtTreeMap.getElem?_map] at h
    obtain ⟨records', hrecords, rfl⟩ := Option.map_eq_some_iff.1 h
    exact ⟨id, records', hrecords, rewritten_map (setBool_rewrite _)⟩
  · rw [setBools]
    dsimp only
    rw [Std.ExtTreeMap.size_map]
    exact Nat.le_max_left _ _
  · exact fun k hk => Or.inl (Std.ExtTreeMap.mem_map.1 hk)
  · rw [setBools]
    dsimp only
    rw [Std.ExtTreeMap.size_map]
    exact fun h => h

/-- **Every operator keeps cycles well formed.** -/
theorem cycleOperator_step (hfilled : Filled seed) (operator : ℕ) :
    Always (Step maxCycles seed) (cycleOperator maxCycles seed operator) := by
  unfold cycleOperator
  split
  · exact cycleMutateValue_step hfilled
  · exact cycleCloneCycle_step hfilled
  · exact cycleDeleteCycle_step hfilled
  · exact cycleInsertCycle_step hfilled
  · exact cycleResetLikeCycle_step hfilled
  · exact always_pure (setBools_step hfilled _)
  · exact always_pure (setBools_step hfilled _)
  · exact always_pure (step_normalizeCycleIds hfilled)

/-- The cycles are numbered from zero on. -/
def Numbered (seed : CycleAwareSeed) : Prop := ∀ id : ℕ, id ∈ seed.cycles ↔ id < seed.cycles.size

theorem numbered_of_lists (lists : List (List StRecord)) : Numbered { seed with cycles := numbered lists } := by
  intro id
  dsimp only
  rw [mem_numbered, size_numbered]

theorem numbered_normalizeCycleIds : Numbered (normalizeCycleIds seed) := numbered_of_lists _

theorem mutateCycleAwareSeed_step (hfilled : Filled seed) :
    Always (fun new => Step maxCycles seed new ∧ Numbered new) (mutateCycleAwareSeed maxCycles seed) := by
  refine always_bind fun operator => (cycleOperator_step hfilled operator).bind fun mutated hstep => always_pure ?_
  exact ⟨hstep.trans (step_normalizeCycleIds hstep.filled), numbered_normalizeCycleIds⟩

end Operators

end SemantiST.Mutation
