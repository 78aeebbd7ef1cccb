import SemantiST.Mutation.Sequences

/-!
# Added cycles

The next number of a cycle, and when adding cycles ends without losing one.
-/

namespace SemantiST.Mutation

open Lib Lib.Drawn Semantic

/-! ### Numbers -/

/-- The greatest number of a cycle. -/
def topId (cycles : CycleMap) : ℕ := cycles.maxKey?.getD 0

/-- The number of cycles there can be: the numbers above the greatest one are free, and zero may be. -/
def capacity (cycles : CycleMap) : ℕ := cycles.size + (u64Max - topId cycles) + if 0 ∈ cycles then 0 else 1

/-- The numbers of cycles are machine integers. -/
def Bounded (cycles : CycleMap) : Prop := ∀ id : ℕ, id ∈ cycles → id ≤ u64Max

section Numbers

variable {cycles : CycleMap} {id : ℕ} {records : List StRecord}

theorem exists_maxKey? (hpos : 0 < cycles.size) : ∃ top, cycles.maxKey? = some top := by
  refine Option.ne_none_iff_exists'.1 fun hnone => ?_
  rw [Std.ExtTreeMap.maxKey?_eq_none_iff, Std.ExtTreeMap.eq_empty_iff_size_eq_zero] at hnone
  omega

theorem maxKey?_eq_topId (hpos : 0 < cycles.size) : cycles.maxKey? = some (topId cycles) := by
  obtain ⟨top, htop⟩ := exists_maxKey? hpos
  rw [topId, htop, Option.getD_some]

theorem topId_mem (hpos : 0 < cycles.size) : topId cycles ∈ cycles :=
  (Std.ExtTreeMap.maxKey?_eq_some_iff_mem_and_forall.1 (maxKey?_eq_topId hpos)).1

theorem le_topId (h : id ∈ cycles) : id ≤ topId cycles := by
  have hpos : 0 < cycles.size := by
    obtain ⟨records, hrecords⟩ := exists_of_mem_keys (Std.ExtTreeMap.mem_keys.2 h)
    exact size_pos_of_getElem? hrecords
  have hle := (Std.ExtTreeMap.maxKey?_eq_some_iff_mem_and_forall.1 (maxKey?_eq_topId hpos)).2 id h
  exact Nat.isLE_compare.1 hle

theorem topId_eq (hmem : id ∈ cycles) (hmax : ∀ k : ℕ, k ∈ cycles → k ≤ id) : topId cycles = id := by
  have hpos : 0 < cycles.size := by
    obtain ⟨records, hrecords⟩ := exists_of_mem_keys (Std.ExtTreeMap.mem_keys.2 hmem)
    exact size_pos_of_getElem? hrecords
  exact Nat.le_antisymm (hmax _ (topId_mem hpos)) (le_topId hmem)

theorem nextId_eq (hbounded : Bounded cycles) (hpos : 0 < cycles.size) :
    nextId cycles = if topId cycles = u64Max then 0 else topId cycles + 1 := by
  have hle := hbounded _ (topId_mem hpos)
  change (topId cycles + 1) % (u64Max + 1) = _
  split
  · rename_i htop
    rw [htop, Nat.mod_self]
  · exact Nat.mod_eq_of_lt (by omega)

/-- **The next number is taken when the greatest one is the last machine integer, and zero is taken.** -/
theorem nextId_mem_iff (hbounded : Bounded cycles) (hpos : 0 < cycles.size) :
    nextId cycles ∈ cycles ↔ u64Max ∈ cycles ∧ 0 ∈ cycles := by
  rw [nextId_eq hbounded hpos]
  split
  · rename_i htop
    exact ⟨fun h => ⟨htop ▸ topId_mem hpos, h⟩, And.right⟩
  · rename_i htop
    constructor
    · intro h
      have := le_topId h
      omega
    · rintro ⟨hlast, -⟩
      have := le_topId hlast
      have := hbounded _ (topId_mem hpos)
      omega

theorem bounded_insert (hbounded : Bounded cycles) (hid : id ≤ u64Max) : Bounded (cycles.insert id records) := by
  intro k hk
  rcases mem_insert_iff.1 hk with rfl | hk
  · exact hid
  · exact hbounded k hk

theorem size_insert_of_mem (h : id ∈ cycles) : (cycles.insert id records).size = cycles.size := by
  rw [Std.ExtTreeMap.size_insert]
  exact if_pos h

theorem size_insert_of_not_mem (h : id ∉ cycles) : (cycles.insert id records).size = cycles.size + 1 := by
  rw [Std.ExtTreeMap.size_insert]
  exact if_neg h

/-- **Adding a cycle leaves the capacity as it is.** -/
theorem capacity_insert_nextId (hbounded : Bounded cycles) (hpos : 0 < cycles.size) :
    capacity (cycles.insert (nextId cycles) records) = capacity cycles := by
  have hle := hbounded _ (topId_mem hpos)
  have htaken := nextId_mem_iff hbounded hpos
  have hnext := nextId_eq hbounded hpos
  have htop : topId (cycles.insert (nextId cycles) records) = max (topId cycles) (nextId cycles) := by
    rcases Nat.le_total (topId cycles) (nextId cycles) with h | h
    · rw [Nat.max_eq_right h]
      refine topId_eq (mem_insert_iff.2 (Or.inl rfl)) fun k hk => ?_
      rcases mem_insert_iff.1 hk with rfl | hk
      · exact Nat.le_refl _
      · exact (le_topId hk).trans h
    · rw [Nat.max_eq_left h]
      refine topId_eq (mem_insert_iff.2 (Or.inr (topId_mem hpos))) fun k hk => ?_
      rcases mem_insert_iff.1 hk with rfl | hk
      · exact h
      · exact le_topId hk
  have hzero : (0 ∈ cycles.insert (nextId cycles) records) ↔ (topId cycles = u64Max ∨ 0 ∈ cycles) := by
    rw [mem_insert_iff, hnext]
    split <;> simp_all
  have hlast : u64Max ∈ cycles ↔ topId cycles = u64Max := by
    constructor
    · intro h
      exact topId_eq h fun k hk => hbounded k hk
    · intro h
      exact h ▸ topId_mem hpos
  unfold capacity
  rw [htop]
  by_cases hfull : topId cycles = u64Max
  · rw [if_pos hfull] at hnext
    rw [hfull, hnext, Nat.max_eq_left (Nat.zero_le _), if_pos (hnext ▸ hzero.2 (Or.inl hfull))]
    by_cases h0 : 0 ∈ cycles
    · rw [if_pos h0, size_insert_of_mem h0]
    · rw [if_neg h0, size_insert_of_not_mem h0]
      omega
  · have hfresh : nextId cycles ∉ cycles := fun h => hfull (hlast.1 (htaken.1 h).1)
    have hsame : (0 ∈ cycles.insert (nextId cycles) records) ↔ 0 ∈ cycles := by
      rw [hzero]
      simp [hfull]
    rw [if_neg hfull] at hnext
    rw [size_insert_of_not_mem hfresh]
    simp only [hsame]
    rw [hnext]
    omega

end Numbers

/-! ### Extension -/

/-- Every cycle is still there, with the same records. -/
def KeepsCycles (old new : CycleAwareSeed) : Prop :=
  ∀ (id : ℕ) (records : List StRecord), old.cycles[id]? = some records → new.cycles[id]? = some records

section Extension

variable {maxCycles desired rounds : ℕ} {seed t : CycleAwareSeed} {id : ℕ} {records : List StRecord}

theorem KeepsCycles.trans {old new new' : CycleAwareSeed} (h : KeepsCycles old new) (h' : KeepsCycles new new') :
    KeepsCycles old new' := fun id records hold => h' id records (h id records hold)

theorem keepsCycles_insert (h : id ∉ seed.cycles) :
    KeepsCycles seed { seed with cycles := seed.cycles.insert id records } := by
  intro k records' hk
  have hne : id ≠ k := by
    rintro rfl
    rw [Std.ExtTreeMap.mem_iff_isSome_getElem?, hk] at h
    exact h rfl
  dsimp only
  rw [getElem?_insert_eq, if_neg hne]
  exact hk

/-- The seeds in the loop that adds cycles. -/
structure Extending (room : ℕ) (seed : CycleAwareSeed) : Prop where
  bounded : Bounded seed.cycles
  pos : 0 < seed.cycles.size
  capacity : capacity seed.cycles = room

theorem extendStep_eq_some (h : extendStep desired seed = some t) :
    seed.cycles.size < desired ∧
      t = { seed with cycles := seed.cycles.insert (nextId seed.cycles) (lastRecords seed.cycles) } := by
  obtain ⟨hlt, heq⟩ := Option.ite_none_right_eq_some.1 h
  exact ⟨hlt, (Option.some.inj heq).symm⟩

theorem Extending.step {room : ℕ} (h : Extending room seed) (hstep : extendStep desired seed = some t) :
    Extending room t := by
  obtain ⟨-, rfl⟩ := extendStep_eq_some hstep
  refine ⟨bounded_insert h.bounded nextId_le, ?_, ?_⟩
  · exact h.pos.trans_le Std.ExtTreeMap.size_le_size_insert
  · exact (capacity_insert_nextId h.bounded h.pos).trans h.capacity

theorem size_le_capacity (cycles : CycleMap) : cycles.size ≤ Mutation.capacity cycles := by
  unfold Mutation.capacity
  omega

/-- Below the capacity, the next number is free. -/
theorem Extending.fresh {room : ℕ} (h : Extending room seed) (hlt : seed.cycles.size < room) :
    nextId seed.cycles ∉ seed.cycles := by
  rw [nextId_mem_iff h.bounded h.pos]
  rintro ⟨hlast, hzero⟩
  have htop : topId seed.cycles = u64Max := topId_eq hlast fun k hk => h.bounded k hk
  have hroom := h.capacity
  rw [Mutation.capacity, htop, if_pos hzero] at hroom
  omega

/-- With the capacity for them, the cycles are added. -/
theorem Extending.ends {room : ℕ} (h : Extending room seed) (hroom : desired ≤ room) {n : ℕ}
    (hn : desired - seed.cycles.size ≤ n) :
    ∃ t, Loop (extendStep desired) seed t ∧ KeepsCycles seed t ∧ desired ≤ t.cycles.size := by
  induction n generalizing seed with
  | zero =>
    have hdone : ¬ seed.cycles.size < desired := by omega
    exact ⟨seed, .exit (if_neg hdone), fun _ _ h => h, by omega⟩
  | succ n ih =>
    by_cases hlt : seed.cycles.size < desired
    · have hfresh := h.fresh (hlt.trans_le hroom)
      have hstep : extendStep desired seed = some { seed with
          cycles := seed.cycles.insert (nextId seed.cycles) (lastRecords seed.cycles) } := if_pos hlt
      have hsize : (seed.cycles.insert (nextId seed.cycles) (lastRecords seed.cycles)).size =
          seed.cycles.size + 1 := size_insert_of_not_mem hfresh
      obtain ⟨t, hloop, hkeeps, hcount⟩ := ih (h.step hstep) (by dsimp only; omega)
      exact ⟨t, .next hstep hloop, (keepsCycles_insert hfresh).trans hkeeps, hcount⟩
    · exact ⟨seed, .exit (if_neg hlt), fun _ _ h => h, by omega⟩

/-- **The loop ends when there is the capacity for the cycles.** -/
theorem Extending.ends_iff {room : ℕ} (h : Extending room seed) :
    (∃ t, Loop (extendStep desired) seed t) ↔ desired ≤ room := by
  constructor
  · rintro ⟨t, hloop⟩
    have ht : Extending room t := hloop.invariant (fun _ _ hs hstep => hs.step hstep) h
    have hdone : ¬ t.cycles.size < desired := by
      intro hlt
      have hnone := hloop.step_eq_none
      rw [extendStep, if_pos hlt] at hnone
      cases hnone
    have := size_le_capacity t.cycles
    have := ht.capacity
    omega
  · intro hroom
    obtain ⟨t, hloop, -⟩ := h.ends hroom (Nat.le_refl (desired - seed.cycles.size))
    exact ⟨t, hloop⟩

theorem extending_baseCycles (hbounded : Bounded seed.cycles) :
    Extending (capacity (baseCycles seed).cycles) (baseCycles seed) := by
  refine ⟨?_, ?_, rfl⟩
  · unfold baseCycles
    split
    · exact bounded_insert hbounded (Nat.zero_le _)
    · exact hbounded
  · unfold baseCycles
    split
    · rename_i hzero
      have hnot : 0 ∉ seed.cycles := by
        rw [Std.ExtTreeMap.eq_empty_iff_size_eq_zero.2 hzero]
        exact Std.ExtTreeMap.not_mem_empty
      dsimp only
      rw [size_insert_of_not_mem hnot]
      omega
    · omega

theorem keepsCycles_baseCycles : KeepsCycles seed (baseCycles seed) := by
  intro id records h
  have hpos := size_pos_of_getElem? h
  rw [baseCycles, if_neg (by omega)]
  exact h

/-- The source does so with enough rounds, and loses no cycle. -/
theorem ensureCycleHint_iff (hbounded : Bounded seed.cycles) :
    (∃ t, (∃ rounds, ensureCycleHint maxCycles rounds seed desired = some t) ∧ KeepsCycles seed t ∧
        min desired maxCycles ≤ t.cycles.size) ↔
      min (max desired 1) maxCycles ≤ capacity (baseCycles seed).cycles := by
  have hextending := extending_baseCycles hbounded
  constructor
  · rintro ⟨t, hrounds, -⟩
    exact hextending.ends_iff.1 ⟨t, exists_loopWithin_iff.1 hrounds⟩
  · intro hroom
    obtain ⟨t, hloop, hkeeps, hcount⟩ := hextending.ends hroom (Nat.le_refl _)
    exact ⟨t, exists_loopWithin_iff.2 hloop, keepsCycles_baseCycles.trans hkeeps, by omega⟩

theorem exists_ensureCycleHint_iff (hbounded : Bounded seed.cycles) :
    (∃ rounds, (ensureCycleHint maxCycles rounds seed desired).isSome = true) ↔
      min (max desired 1) maxCycles ≤ capacity (baseCycles seed).cycles := by
  rw [← (extending_baseCycles hbounded).ends_iff]
  constructor
  · rintro ⟨rounds, h⟩
    obtain ⟨t, ht⟩ := Option.isSome_iff_exists.1 h
    exact ⟨t, exists_loopWithin_iff.1 ⟨rounds, ht⟩⟩
  · rintro ⟨t, hloop⟩
    obtain ⟨rounds, h⟩ := exists_loopWithin_iff.2 hloop
    exact ⟨rounds, Option.isSome_iff_exists.2 ⟨t, h⟩⟩

/-! ### Parsed seeds -/

/-- A prefix is a machine integer, and the rest of the name is not empty. -/
theorem splitCyclePrefix_eq_some {name field : Text} {cycle : ℕ} (h : splitCyclePrefix name = some (cycle, field)) :
    cycle ≤ u64Max ∧ field ≠ [] := by
  obtain ⟨⟨digits, rest⟩, -, h⟩ := Option.bind_eq_some_iff.1 h
  dsimp only at h
  split at h
  · cases h
  · rename_i hguard
    obtain ⟨n, hn, heq⟩ := Option.map_eq_some_iff.1 h
    cases heq
    refine ⟨(parseUnsigned_eq_some hn).1, ?_⟩
    rintro rfl
    exact hguard (by simp)

/-- What every line that is read keeps, parsed seeds have. -/
theorem parseCycleAwareSeed_induction {P : CycleAwareSeed → Prop} (hempty : P {})
    (hadd : ∀ seed line fields, P seed → '\n' ∉ line → structuredRecordFields line = some fields →
      P (seed.addRecord fields))
    (text : Text) : P (parseCycleAwareSeed text) := by
  have hfold (records : List (Text × Text × Text)) (seed : CycleAwareSeed)
      (hrecords : ∀ fields ∈ records, ∃ line, '\n' ∉ line ∧ structuredRecordFields line = some fields) (hseed : P seed) :
      P (records.foldl CycleAwareSeed.addRecord seed) := by
    induction records generalizing seed with
    | nil => exact hseed
    | cons fields records ih =>
      obtain ⟨line, hnewline, hline⟩ := hrecords fields List.mem_cons_self
      exact ih _ (fun f hf => hrecords f (List.mem_cons_of_mem _ hf)) (hadd seed line fields hseed hnewline hline)
  refine hfold _ _ ?_ hempty
  intro fields h
  obtain ⟨line, hmem, hline⟩ := List.mem_filterMap.1 h
  exact ⟨line, newline_of_mem_lines hmem, hline⟩

theorem bounded_parse (text : Text) : Bounded (parseCycleAwareSeed text).cycles := by
  refine @parseCycleAwareSeed_induction (fun seed => Bounded seed.cycles) ?_ ?_ text
  · intro id h
    exact absurd h Std.ExtTreeMap.not_mem_empty
  · rintro seed line ⟨name, ty, value⟩ hbounded - -
    unfold CycleAwareSeed.addRecord
    dsimp only
    split
    · rename_i cycle field hprefix
      exact bounded_insert hbounded (splitCyclePrefix_eq_some hprefix).1
    · exact hbounded

theorem filled_parse (text : Text) : Filled (parseCycleAwareSeed text) := by
  apply parseCycleAwareSeed_induction
  · intro id records h
    rw [Std.ExtTreeMap.getElem?_empty] at h
    cases h
  · rintro seed line ⟨name, ty, value⟩ hfilled - -
    unfold CycleAwareSeed.addRecord
    dsimp only
    split
    · intro id records h
      dsimp only at h
      rw [getElem?_insert_eq] at h
      split at h
      · obtain rfl := Option.some.inj h
        exact List.append_ne_nil_of_right_ne_nil _ (List.cons_ne_nil _ _)
      · exact hfilled id records h
    · exact hfilled

end Extension

/-! ## Cycles are added -/

/-- Exactly one cycle has been added, where one is to be; else nothing has changed. -/
def AddsCycle (adds : Prop) (old new : CycleAwareSeed) : Prop :=
  (adds → KeepsCycles old new ∧ new.cycles.size = old.cycles.size + 1) ∧ (¬ adds → new = old)

section Adding

variable {maxCycles : ℕ} {seed : CycleAwareSeed}

theorem addsCycle_insert_iff {adds : Prop} (hadds : adds) {id : ℕ} {records : List StRecord} :
    AddsCycle adds seed { seed with cycles := seed.cycles.insert id records } ↔ id ∉ seed.cycles := by
  constructor
  · rintro ⟨h, -⟩ hmem
    have := (h hadds).2
    rw [size_insert_of_mem hmem] at this
    omega
  · intro hfresh
    exact ⟨fun _ => ⟨keepsCycles_insert hfresh, size_insert_of_not_mem hfresh⟩, fun hnot => absurd hadds hnot⟩

/-- With a cycle to copy and room for another, a copy is one cycle more, whatever is drawn, unless the numbers zero
and the last machine integer are both taken. -/
theorem cycleCloneCycle_adds_iff (hbounded : Bounded seed.cycles) (draws : Draws) :
    AddsCycle (0 < seed.cycles.size ∧ seed.cycles.size < maxCycles) seed (cycleCloneCycle maxCycles seed draws).1 ↔
      (0 < seed.cycles.size → seed.cycles.size < maxCycles → ¬ (u64Max ∈ seed.cycles ∧ 0 ∈ seed.cycles)) := by
  by_cases hadds : 0 < seed.cycles.size ∧ seed.cycles.size < maxCycles
  · have hkeys : ¬ seed.cycles.keys.isEmpty = true := fun h => by
      have := size_eq_zero_of_keys h
      omega
    have hresult : ∃ records, (cycleCloneCycle maxCycles seed draws).1 =
        { seed with cycles := seed.cycles.insert (nextId seed.cycles) records } := by
      rw [cycleCloneCycle, if_neg (by omega), if_neg hkeys]
      exact ⟨_, rfl⟩
    obtain ⟨records, hresult⟩ := hresult
    rw [hresult, addsCycle_insert_iff hadds, nextId_mem_iff hbounded hadds.1]
    exact ⟨fun h _ _ => h, fun h => h hadds.1 hadds.2⟩
  · have hresult : (cycleCloneCycle maxCycles seed draws).1 = seed := by
      unfold cycleCloneCycle
      split
      · rfl
      · rename_i hroom
        have hkeys : seed.cycles.keys.isEmpty = true := by
          rw [List.isEmpty_iff, ← List.length_eq_zero_iff, Std.ExtTreeMap.length_keys]
          omega
        rw [if_pos hkeys]
        rfl
    rw [hresult]
    exact ⟨fun _ hpos hlt => absurd ⟨hpos, hlt⟩ hadds, fun _ => ⟨fun h => absurd h hadds, fun _ => rfl⟩⟩

theorem cycleInsertCycle_adds_iff (hbounded : Bounded seed.cycles) (draws : Draws) :
    AddsCycle (seed.cycles.size < maxCycles) seed (cycleInsertCycle maxCycles seed draws).1 ↔
      (seed.cycles.size < maxCycles → ¬ (u64Max ∈ seed.cycles ∧ 0 ∈ seed.cycles)) := by
  by_cases hadds : seed.cycles.size < maxCycles
  · have hresult : ∃ records, (cycleInsertCycle maxCycles seed draws).1 =
        { seed with cycles := seed.cycles.insert (nextId seed.cycles) records } := by
      rw [cycleInsertCycle, if_neg (by omega)]
      dsimp only
      split
      · exact ⟨_, rfl⟩
      · exact ⟨_, rfl⟩
    have hfresh : nextId seed.cycles ∈ seed.cycles ↔ u64Max ∈ seed.cycles ∧ 0 ∈ seed.cycles := by
      rcases Nat.eq_zero_or_pos seed.cycles.size with hzero | hpos
      · rw [Std.ExtTreeMap.eq_empty_iff_size_eq_zero.2 hzero]
        exact ⟨fun h => absurd h Std.ExtTreeMap.not_mem_empty, fun h => absurd h.2 Std.ExtTreeMap.not_mem_empty⟩
      · exact nextId_mem_iff hbounded hpos
    obtain ⟨records, hresult⟩ := hresult
    rw [hresult, addsCycle_insert_iff hadds, hfresh]
    exact ⟨fun h _ => h, fun h => h hadds⟩
  · have hresult : (cycleInsertCycle maxCycles seed draws).1 = seed := by
      rw [cycleInsertCycle, if_pos (by omega)]
      rfl
    rw [hresult]
    exact ⟨fun _ hlt => absurd hlt hadds, fun _ => ⟨fun h => absurd h hadds, fun _ => rfl⟩⟩

/-- **Cycles are added.**  There are as many as desired, none is lost, and a copy is one cycle more: this holds of a
parsed seed when there are free numbers for the missing cycles, and when not both zero and the last machine integer are
taken. -/
theorem cycles_added_iff (text : Text) (desired maxCycles : ℕ) (draws : Draws) :
    ((∃ seed, (∃ rounds, ensureCycleHint maxCycles rounds (parseCycleAwareSeed text) desired = some seed) ∧
        KeepsCycles (parseCycleAwareSeed text) seed ∧ min desired maxCycles ≤ seed.cycles.size) ∧
      AddsCycle (0 < (parseCycleAwareSeed text).cycles.size ∧ (parseCycleAwareSeed text).cycles.size < maxCycles)
        (parseCycleAwareSeed text) (cycleCloneCycle maxCycles (parseCycleAwareSeed text) draws).1 ∧
      AddsCycle ((parseCycleAwareSeed text).cycles.size < maxCycles)
        (parseCycleAwareSeed text) (cycleInsertCycle maxCycles (parseCycleAwareSeed text) draws).1) ↔
    min (max desired 1) maxCycles ≤ capacity (baseCycles (parseCycleAwareSeed text)).cycles ∧
      ((parseCycleAwareSeed text).cycles.size < maxCycles →
        ¬ (u64Max ∈ (parseCycleAwareSeed text).cycles ∧ 0 ∈ (parseCycleAwareSeed text).cycles)) := by
  have hbounded := bounded_parse text
  rw [ensureCycleHint_iff hbounded, cycleCloneCycle_adds_iff hbounded, cycleInsertCycle_adds_iff hbounded]
  constructor
  · rintro ⟨hroom, -, hinsert⟩
    exact ⟨hroom, hinsert⟩
  · rintro ⟨hroom, hinsert⟩
    exact ⟨hroom, fun _ => hinsert, hinsert⟩

/-- A seed with the last machine integer as its only number has room for one cycle more. -/
theorem capacity_lastId :
    (parseCycleAwareSeed "18446744073709551615.X,INT,1".toList).cycles.size = 1 ∧
      capacity (parseCycleAwareSeed "18446744073709551615.X,INT,1".toList).cycles = 2 := by
  have hkeys : (parseCycleAwareSeed "18446744073709551615.X,INT,1".toList).cycles.keys = [u64Max] := by decide
  generalize parseCycleAwareSeed "18446744073709551615.X,INT,1".toList = seed at hkeys
  have hmem (id : ℕ) : id ∈ seed.cycles ↔ id = u64Max := by
    rw [← Std.ExtTreeMap.mem_keys, hkeys, List.mem_singleton]
  have hsize : seed.cycles.size = 1 := by
    rw [← Std.ExtTreeMap.length_keys, hkeys]
    rfl
  have htop : topId seed.cycles = u64Max := topId_eq ((hmem _).2 rfl) fun k hk => ((hmem k).1 hk).le
  have hzero : 0 ∉ seed.cycles := by
    rw [hmem]
    decide
  refine ⟨hsize, ?_⟩
  rw [capacity, hsize, htop, if_neg hzero]
  omega

/-- The loop never adds a third cycle to it. -/
theorem ensureCycleHint_never_ends :
    ¬ ∃ seed, (∃ rounds, ensureCycleHint 256 rounds
        (parseCycleAwareSeed "18446744073709551615.X,INT,1".toList) 3 = some seed) ∧
      KeepsCycles (parseCycleAwareSeed "18446744073709551615.X,INT,1".toList) seed ∧ min 3 256 ≤ seed.cycles.size := by
  obtain ⟨hsize, hcapacity⟩ := capacity_lastId
  rw [ensureCycleHint_iff (bounded_parse _), baseCycles, if_neg (by omega), hcapacity]
  omega

end Adding

end SemantiST.Mutation
