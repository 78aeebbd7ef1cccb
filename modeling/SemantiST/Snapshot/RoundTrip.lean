import SemantiST.Snapshot.Relocations

/-!
# A snapshot in another process

What an import leaves of a checkpoint: the same bytes outside the pointers, and pointers to the same
places of regions that lie elsewhere.
-/

namespace SemantiST.Snapshot

open Lib

/-! ## Layouts and processes -/

/-- The start of a region in a checkpoint. -/
def Layout.start (layout : Layout) (i : ℕ) : ℕ := ((layout.regions.take i).map Region.size).sum

/-- The places of the listed pointers in a checkpoint. -/
def Layout.slots (layout : Layout) : List ℕ :=
  layout.regions.zipIdx.flatMap fun entry => entry.1.pointerOffsets.map fun offset =>
    layout.start entry.2 + offset

/-- The layout lists the regions of a process in the order of a checkpoint, the harness last. -/
structure Describes (layout : Layout) (process : Process) : Prop where
  sizes : layout.regions.map Region.size = process.blocks.map Block.size
  indices : layout.regions.map Region.index = List.range layout.regions.length
  harness : layout.harnessRegionIndex.getD process.targets.length = process.targets.length

/-- The listed pointers lie in their regions and apart from each other. -/
structure Separate (layout : Layout) : Prop where
  inside : ∀ region ∈ layout.regions, ∀ offset ∈ region.pointerOffsets, offset + 8 ≤ region.size
  apart : ∀ region ∈ layout.regions, ∀ offset ∈ region.pointerOffsets, ∀ offset' ∈ region.pointerOffsets,
    offset = offset' ∨ offset + 8 ≤ offset' ∨ offset' + 8 ≤ offset

/-- No two regions of a process overlap, and all lie in the address space. -/
structure Placed (process : Process) : Prop where
  apart : process.blocks.Pairwise Block.Apart
  fits : ∀ block ∈ process.blocks, block.address + block.size ≤ 2 ^ 64

structure SameRegions (process process' : Process) : Prop where
  targets : process'.targets.map Block.size = process.targets.map Block.size
  harness : process'.harness.size = process.harness.size

/-! ## What an import promises -/

variable (order : ByteOrder)

def pointerAt (state : List UInt8) (place : ℕ) : ℕ := order.decode ((state.drop place).take 8)

/-- The address is a place of a region of one process, and the other is that place in the other. -/
def Corresponds (process process' : Process) (address address' : ℕ) : Prop :=
  ∃ (i : ℕ) (block block' : Block), process.blocks[i]? = some block ∧ process'.blocks[i]? = some block' ∧
    block.address ≤ address ∧ address < block.address + block.size ∧
    address' = block'.address + (address - block.address)

structure Imported (layout : Layout) (process process' : Process) (state state' : List UInt8) : Prop where
  length_eq : state'.length = state.length
  outside : ∀ i, (∀ slot ∈ layout.slots, ¬(slot ≤ i ∧ i < slot + 8)) → state'[i]? = state[i]?
  null : ∀ slot ∈ layout.slots, pointerAt order state slot = 0 → pointerAt order state' slot = 0
  moved : ∀ slot ∈ layout.slots, pointerAt order state slot ≠ 0 →
    Corresponds process process' (pointerAt order state slot) (pointerAt order state' slot)

/-- What a process exports completely, another imports. -/
def RoundTrip (layout : Layout) (process process' : Process) (state : List UInt8) (memory : Memory) : Prop :=
  let relocations := snapshotRelocations order process layout state
  relocations.complete = true →
    let result := semantistImportState order process' state relocations.records memory
    result.1 = 0 ∧ Imported order layout process process' state (semantistCheckpoint process' result.2)

/-! ## The regions of a process -/

section

variable {order : ByteOrder} {layout : Layout} {process process' : Process} {state : List UInt8}
  {memory : Memory}

theorem checkpoint_eq (process : Process) (memory : Memory) :
    semantistCheckpoint process memory = readAll memory process.blocks := by
  rw [semantistCheckpoint, Process.blocks, readAll, readAll, List.flatMap_append, List.flatMap_singleton]

theorem writeAll_append (blocks : List Block) (block : Block) (buffer : List UInt8) (memory : Memory) :
    writeAll (blocks ++ [block]) buffer memory =
      (writeAll blocks buffer memory).write block.address
        ((buffer.drop (totalSize blocks)).take block.size) := by
  induction blocks generalizing buffer memory with
  | nil => rfl
  | cons first blocks ih =>
    rw [List.cons_append, writeAll, ih, writeAll, List.drop_drop]
    rfl

theorem restore_eq (process : Process) (blob : List UInt8) (memory : Memory) :
    semantistRestore process blob memory = writeAll process.blocks blob memory :=
  (writeAll_append process.targets process.harness blob memory).symm

theorem stateSize_eq (process : Process) : semantistStateSize process = totalSize process.blocks := by
  rw [semantistStateSize, totalSize, totalSize, Process.blocks, List.map_append, List.sum_append,
    List.map_singleton, List.sum_singleton, Nat.add_comm]

theorem regionAt_eq (process : Process) (i : ℕ) : regionAt process i = process.blocks[i]? := by
  rw [regionAt, Process.blocks]
  split
  · rename_i heq
    rw [heq, List.getElem?_concat_length]
  · rename_i hne
    rcases Nat.lt_or_ge i process.targets.length with hlt | hge
    · rw [List.getElem?_append_left hlt]
    · rw [List.getElem?_eq_none hge, List.getElem?_eq_none (by
        rw [List.length_append, List.length_singleton]
        omega)]

theorem SameRegions.sizes (h : SameRegions process process') :
    process'.blocks.map Block.size = process.blocks.map Block.size := by
  rw [Process.blocks, Process.blocks, List.map_append, List.map_append, h.targets, List.map_singleton,
    List.map_singleton, h.harness]

theorem SameRegions.block (h : SameRegions process process') {i : ℕ} {block : Block}
    (hblock : process.blocks[i]? = some block) :
    ∃ block', process'.blocks[i]? = some block' ∧ block'.size = block.size := by
  have hsize := congrArg (fun sizes : List ℕ => sizes[i]?) h.sizes
  simp only [List.getElem?_map, hblock, Option.map_some] at hsize
  obtain ⟨block', hblock', hsize'⟩ := Option.map_eq_some_iff.1 hsize
  exact ⟨block', hblock', hsize'⟩

theorem totalSize_eq (blocks : List Block) : totalSize blocks = (blocks.map Block.size).sum := rfl

theorem Describes.start_eq (h : Describes layout process) (i : ℕ) :
    layout.start i = totalSize (process.blocks.take i) := by
  rw [Layout.start, totalSize, List.map_take, h.sizes, List.map_take]

theorem Describes.block (h : Describes layout process) {i : ℕ} {region : Region}
    (hregion : layout.regions[i]? = some region) :
    ∃ block, process.blocks[i]? = some block ∧ block.size = region.size := by
  have hsize := congrArg (fun sizes : List ℕ => sizes[i]?) h.sizes
  simp only [List.getElem?_map, hregion, Option.map_some] at hsize
  obtain ⟨block, hblock, hsize'⟩ := Option.map_eq_some_iff.1 hsize.symm
  exact ⟨block, hblock, hsize'⟩

theorem Describes.index (h : Describes layout process) {i : ℕ} {region : Region}
    (hregion : layout.regions[i]? = some region) : region.index = i := by
  have hindex := congrArg (fun indices : List ℕ => indices[i]?) h.indices
  have hlt : i < layout.regions.length := (List.getElem?_eq_some_iff.1 hregion).1
  simp only [List.getElem?_map, hregion, Option.map_some, List.getElem?_range hlt] at hindex
  exact Option.some.inj hindex

/-! ## Slots -/

theorem mem_slots {slot : ℕ} :
    slot ∈ layout.slots ↔ ∃ i region offset, layout.regions[i]? = some region ∧
      offset ∈ region.pointerOffsets ∧ slot = layout.start i + offset := by
  rw [Layout.slots, List.mem_flatMap]
  constructor
  · rintro ⟨⟨region, i⟩, hentry, hslot⟩
    obtain ⟨offset, hoffset, rfl⟩ := List.mem_map.1 hslot
    exact ⟨i, region, offset, List.mem_zipIdx_iff_getElem?.1 hentry, hoffset, rfl⟩
  · rintro ⟨i, region, offset, hregion, hoffset, rfl⟩
    exact ⟨(region, i), List.mem_zipIdx_iff_getElem?.2 hregion, List.mem_map.2 ⟨offset, hoffset, rfl⟩⟩

theorem start_succ {i : ℕ} {region : Region} (h : layout.regions[i]? = some region) :
    layout.start (i + 1) = layout.start i + region.size := by
  rw [Layout.start, Layout.start, List.take_add_one, h, Option.toList_some, List.map_append, List.sum_append,
    List.map_singleton, List.sum_singleton]

theorem start_mono (layout : Layout) {i j : ℕ} (h : i ≤ j) : layout.start i ≤ layout.start j := by
  induction h with
  | refl => exact le_rfl
  | @step j _ ih =>
    apply ih.trans
    cases hregion : layout.regions[j]? with
    | none =>
      have hlength := List.getElem?_eq_none_iff.1 hregion
      rw [Layout.start, Layout.start, List.take_of_length_le hlength, List.take_of_length_le (by omega)]
    | some region =>
      rw [start_succ hregion]
      omega

theorem Describes.start_length (h : Describes layout process) :
    layout.start layout.regions.length = totalSize process.blocks := by
  rw [Layout.start, List.take_length, h.sizes]
  rfl

theorem slot_end (hinside : Separate layout) {i offset : ℕ} {region : Region}
    (hregion : layout.regions[i]? = some region) (hoffset : offset ∈ region.pointerOffsets) :
    layout.start i + offset + 8 ≤ layout.start (i + 1) := by
  have hfits := hinside.inside region (List.mem_of_getElem? hregion) offset hoffset
  rw [start_succ hregion]
  omega

/-- Two listed pointers are the same or lie apart. -/
theorem Separate.slots (h : Separate layout) {slot slot' : ℕ} (hslot : slot ∈ layout.slots)
    (hslot' : slot' ∈ layout.slots) : slot = slot' ∨ slot + 8 ≤ slot' ∨ slot' + 8 ≤ slot := by
  obtain ⟨i, region, offset, hregion, hoffset, rfl⟩ := mem_slots.1 hslot
  obtain ⟨j, region', offset', hregion', hoffset', rfl⟩ := mem_slots.1 hslot'
  have hend := slot_end h hregion hoffset
  have hend' := slot_end h hregion' hoffset'
  rcases Nat.lt_trichotomy i j with hlt | rfl | hlt
  · have hmono := start_mono layout (show i + 1 ≤ j from hlt)
    exact .inr (.inl (by omega))
  · rw [hregion] at hregion'
    cases hregion'
    have hapart := h.apart region (List.mem_of_getElem? hregion) offset hoffset offset' hoffset'
    omega
  · have hmono := start_mono layout (show j + 1 ≤ i from hlt)
    exact .inr (.inr (by omega))

/-! ## What is exported -/

theorem saturatingAdd_eq {a b : ℕ} (h : a + b ≤ u64Max) : saturatingAdd a b = a + b := Nat.min_eq_left h

theorem keys_regionOffsets (cursor : ℕ) (regions : List Region) :
    (regionOffsets cursor regions).map Prod.fst = regions.map Region.index := by
  induction regions generalizing cursor with
  | nil => rfl
  | cons region regions ih => rw [regionOffsets, List.map_cons, List.map_cons, ih]

theorem mem_regionOffsets {regions : List Region} {cursor i : ℕ} {region : Region}
    (h : regions[i]? = some region) (hfits : cursor + (regions.map Region.size).sum ≤ u64Max) :
    (region.index, cursor + ((regions.take i).map Region.size).sum) ∈ regionOffsets cursor regions := by
  induction regions generalizing cursor i with
  | nil => cases h
  | cons first regions ih =>
    rw [List.map_cons, List.sum_cons] at hfits
    rw [regionOffsets, saturatingAdd_eq (by omega)]
    cases i with
    | zero =>
      cases h
      rw [List.take_zero, List.map_nil, List.sum_nil, Nat.add_zero]
      exact List.mem_cons_self
    | succ i =>
      have hmem := @ih (cursor + first.size) i h (by omega)
      rw [List.take_succ_cons, List.map_cons, List.sum_cons, ← Nat.add_assoc]
      exact List.mem_cons_of_mem _ hmem

/-- The exporter finds each region where the checkpoint has it. -/
theorem Describes.offsets_eq (h : Describes layout process) (hsize : totalSize process.blocks ≤ u64Max)
    {i : ℕ} {region : Region} (hregion : layout.regions[i]? = some region) :
    (insertAll ∅ (regionOffsets 0 layout.regions))[region.index]? = some (layout.start i) := by
  have hfits : 0 + (layout.regions.map Region.size).sum ≤ u64Max := by
    rw [Nat.zero_add, h.sizes]
    exact hsize
  have hmem := mem_regionOffsets hregion hfits
  rw [Nat.zero_add] at hmem
  have hnodup : ((regionOffsets 0 layout.regions).map Prod.fst).Nodup := by
    rw [keys_regionOffsets, h.indices]
    exact List.nodup_range
  rw [getElem?_insertAll, lastValue_of_mem hnodup hmem, Option.some_or]
  rfl

/-- The exporter knows the blocks of all regions. -/
theorem Describes.find_harness (h : Describes layout process) :
    ∃ region, (layout.regions.find? fun region => region.index = process.targets.length) = some region ∧
      region.size = process.harness.size := by
  have hlast : process.blocks[process.targets.length]? = some process.harness := List.getElem?_concat_length
  have hsize := congrArg (fun sizes : List ℕ => sizes[process.targets.length]?) h.sizes
  simp only [List.getElem?_map, hlast, Option.map_some] at hsize
  obtain ⟨region, hregion, hsize'⟩ := Option.map_eq_some_iff.1 hsize
  refine ⟨region, ?_, hsize'⟩
  cases hfind : layout.regions.find? fun region => region.index = process.targets.length with
  | none =>
    have hnone := List.find?_eq_none.1 hfind region (List.mem_of_getElem? hregion)
    rw [h.index hregion] at hnone
    simp at hnone
  | some found =>
    have hindex := List.find?_some hfind
    obtain ⟨j, hj⟩ := List.getElem?_of_mem (List.mem_of_find?_eq_some hfind)
    rw [decide_eq_true_eq, h.index hj] at hindex
    rw [hindex, hregion] at hj
    exact hj.symm

theorem findTarget_eq_some {blocks : List Block} {address t offset : ℕ}
    (h : findTarget (blocks.zipIdx.map Prod.swap) address = some (t, offset)) :
    ∃ block, blocks[t]? = some block ∧ block.address ≤ address ∧ address < block.address + block.size ∧
      offset = address - block.address := by
  obtain ⟨⟨index, block⟩, hmem, hfound⟩ := List.exists_of_findSome?_eq_some h
  obtain ⟨⟨block', index'⟩, hentry, hswap⟩ := List.mem_map.1 hmem
  cases hswap
  dsimp only at hfound
  split at hfound
  · cases hfound
  · split at hfound
    · rename_i hin
      cases hfound
      exact ⟨block', List.mem_zipIdx_iff_getElem?.1 hentry, hin.1, hin.2, rfl⟩
    · cases hfound

theorem exportSlot_eq {targets : List (ℕ × Block)} {base region offset : ℕ}
    (hfits : base + offset + 8 ≤ state.length) (hlength : state.length ≤ u64Max) :
    exportSlot order targets base state region offset =
      if pointerAt order state (base + offset) = 0 then .null
      else
        match findTarget targets (pointerAt order state (base + offset)) with
        | some (targetRegion, targetOffset) => .record { region, offset, targetRegion, targetOffset }
        | none => .missing (.outsideRegions region offset) := by
  rw [exportSlot, saturatingAdd_eq (by omega), if_neg (by omega)]
  rfl

/-- What is known of the listed pointers, in turn. -/
def slotResults (order : ByteOrder) (layout : Layout) (process : Process) (state : List UInt8) :
    List SlotResult :=
  layout.regions.zipIdx.flatMap fun entry => entry.1.pointerOffsets.map fun offset =>
    exportSlot order (process.blocks.zipIdx.map Prod.swap) (layout.start entry.2) state entry.2 offset

/-- What a complete export says of the listed pointers. -/
structure Exported (order : ByteOrder) (layout : Layout) (process : Process) (state : List UInt8)
    (records : List Record) : Prop where
  sound : ∀ record ∈ records, ∃ region, layout.regions[record.region]? = some region ∧
    record.offset ∈ region.pointerOffsets ∧
    findTarget (process.blocks.zipIdx.map Prod.swap)
      (pointerAt order state (layout.start record.region + record.offset)) =
      some (record.targetRegion, record.targetOffset) ∧
    pointerAt order state (layout.start record.region + record.offset) ≠ 0
  all : ∀ (i : ℕ) (region : Region) (offset : ℕ), layout.regions[i]? = some region →
    offset ∈ region.pointerOffsets → pointerAt order state (layout.start i + offset) ≠ 0 →
    ∃ record ∈ records, record.region = i ∧ record.offset = offset

/-- A complete export knows every listed pointer. -/
theorem records_of_complete (hlayout : Describes layout process)
    (hlength : state.length = totalSize process.blocks) (hsize : state.length ≤ u64Max)
    (hcomplete : (snapshotRelocations order process layout state).complete = true) :
    (snapshotRelocations order process layout state).records =
        (slotResults order layout process state).filterMap SlotResult.record? ∧
      (slotResults order layout process state).filterMap SlotResult.missing? = [] := by
  obtain ⟨harness, hfind, hharness⟩ := hlayout.find_harness
  have htargets : process.targets.zipIdx.map Prod.swap ++
      ((some harness).map fun region : Region =>
        (process.targets.length, { process.harness with size := region.size })).toList =
      process.blocks.zipIdx.map Prod.swap := by
    rw [Process.blocks, List.zipIdx_append, List.map_append, Option.map_some, hharness]
    simp
  have hresults : (layout.regions.flatMap fun region => region.pointerOffsets.map fun offset =>
      exportSlot order (process.blocks.zipIdx.map Prod.swap)
        ((insertAll ∅ (regionOffsets 0 layout.regions))[region.index]?.getD u64Max) state region.index offset) =
      slotResults order layout process state := by
    have hregions : layout.regions = layout.regions.zipIdx.map Prod.fst := (List.zipIdx_map_fst _ _).symm
    conv_lhs => rw [hregions]
    rw [List.flatMap_map]
    apply List.flatMap_congr
    rintro ⟨region, i⟩ hentry
    have hregion := List.mem_zipIdx_iff_getElem?.1 hentry
    dsimp only
    rw [← hregions, hlayout.offsets_eq (hlength ▸ hsize) hregion, hlayout.index hregion, Option.getD_some]
  revert hcomplete
  simp only [snapshotRelocations, hlayout.harness, hfind, htargets, hresults]
  split
  · intro hcomplete
    cases hcomplete
  · split
    · intro hcomplete
      cases hcomplete
    · split
      · intro hcomplete
        cases hcomplete
      · split
        · rename_i hmissing
          exact fun _ => ⟨rfl, hmissing⟩
        · intro hcomplete
          cases hcomplete

theorem slot_fits (hlayout : Describes layout process) (hslots : Separate layout) {i offset : ℕ}
    {region : Region} (hregion : layout.regions[i]? = some region) (hoffset : offset ∈ region.pointerOffsets) :
    layout.start i + offset + 8 ≤ totalSize process.blocks := by
  have hend := slot_end hslots hregion hoffset
  have hmono := start_mono layout (show i + 1 ≤ layout.regions.length from
    (List.getElem?_eq_some_iff.1 hregion).1)
  rw [hlayout.start_length] at hmono
  omega

theorem exported_of_complete (hlayout : Describes layout process) (hslots : Separate layout)
    (hlength : state.length = totalSize process.blocks) (hsize : state.length ≤ u64Max)
    (hcomplete : (snapshotRelocations order process layout state).complete = true) :
    Exported order layout process state (snapshotRelocations order process layout state).records := by
  obtain ⟨hrecords, hmissing⟩ := records_of_complete hlayout hlength hsize hcomplete
  rw [hrecords]
  have hslot : ∀ (i : ℕ) (region : Region) (offset : ℕ), layout.regions[i]? = some region →
      offset ∈ region.pointerOffsets → layout.start i + offset + 8 ≤ state.length := by
    intro i region offset hregion hoffset
    rw [hlength]
    exact slot_fits hlayout hslots hregion hoffset
  constructor
  · intro record hrecord
    obtain ⟨result, hresult, hsome⟩ := List.mem_filterMap.1 hrecord
    obtain ⟨⟨region, i⟩, hentry, hresult⟩ := List.mem_flatMap.1 hresult
    obtain ⟨offset, hoffset, rfl⟩ := List.mem_map.1 hresult
    have hregion := List.mem_zipIdx_iff_getElem?.1 hentry
    dsimp only at hregion hoffset hsome
    rw [exportSlot_eq (hslot i region offset hregion hoffset) hsize] at hsome
    split at hsome
    · cases hsome
    · rename_i hne
      split at hsome
      · rename_i targetRegion targetOffset hfind
        cases hsome
        exact ⟨region, hregion, hoffset, hfind, hne⟩
      · cases hsome
  · intro i region offset hregion hoffset hne
    have hmem : exportSlot order (process.blocks.zipIdx.map Prod.swap) (layout.start i) state i offset ∈
        slotResults order layout process state :=
      List.mem_flatMap.2 ⟨(region, i), List.mem_zipIdx_iff_getElem?.2 hregion,
        List.mem_map.2 ⟨offset, hoffset, rfl⟩⟩
    rw [exportSlot_eq (hslot i region offset hregion hoffset) hsize, if_neg hne] at hmem
    split at hmem
    · exact ⟨_, List.mem_filterMap.2 ⟨_, hmem, rfl⟩, rfl, rfl⟩
    · have hnone := List.filterMap_eq_nil_iff.1 hmissing _ hmem
      cases hnone

/-! ## What is imported -/

/-- A record names a pointer in a region and a place in one. -/
structure Valid (process : Process) (record : Record) (source target : Block) : Prop where
  source_eq : process.blocks[record.region]? = some source
  target_eq : process.blocks[record.targetRegion]? = some target
  offset_le : record.offset + 8 ≤ source.size
  target_lt : record.targetOffset < target.size

/-- The new pointer of a record, and its place in a checkpoint. -/
def patchOf (order : ByteOrder) (process : Process) (record : Record) : ℕ × List UInt8 :=
  (totalSize (process.blocks.take record.region) + record.offset,
    order.encode 8 ((process.blocks[record.targetRegion]?.elim 0 Block.address) + record.targetOffset))

theorem importRecord_eq (hplaced : Placed process) {record : Record} {source target : Block}
    (h : Valid process record source target) (memory : Memory) :
    importRecord order process memory record =
      some (memory.write (source.address + record.offset) (patchOf order process record).2) := by
  have hsource := hplaced.fits source (List.mem_of_getElem? h.source_eq)
  have htarget := hplaced.fits target (List.mem_of_getElem? h.target_eq)
  have hoffset := h.offset_le
  have hlt := h.target_lt
  have hwrap : (source.size + 2 ^ 64 - 8) % 2 ^ 64 = source.size - 8 := by omega
  have hmod : (target.address + record.targetOffset) % 2 ^ 64 = target.address + record.targetOffset :=
    Nat.mod_eq_of_lt (by omega)
  rw [importRecord, regionAt_eq, regionAt_eq, h.source_eq, h.target_eq]
  dsimp only
  rw [hwrap, hmod, if_neg (by omega), patchOf, h.target_eq]
  rfl

/-- Valid records are all applied. -/
theorem importRecords_eq (hplaced : Placed process) {records : List Record}
    (h : ∀ record ∈ records, ∃ source target, Valid process record source target) (memory : Memory) :
    (importRecords order process memory records).1 = 0 ∧
      readAll (importRecords order process memory records).2 process.blocks =
        storeAll (readAll memory process.blocks) (records.map (patchOf order process)) := by
  induction records generalizing memory with
  | nil => exact ⟨rfl, rfl⟩
  | cons record records ih =>
    obtain ⟨hfirst, hrest⟩ := List.forall_mem_cons.1 h
    obtain ⟨source, target, hvalid⟩ := hfirst
    obtain ⟨hcode, hread⟩ := ih hrest (memory.write (source.address + record.offset) (patchOf order process record).2)
    have hlength : (patchOf order process record).2.length = 8 := order.length_encode 8 _
    have hfits : record.offset + (patchOf order process record).2.length ≤ source.size := by
      rw [hlength]
      exact hvalid.offset_le
    have hwrite := @readAll_write memory _ _ _ hplaced.apart _ _ hvalid.source_eq hfits
    rw [importRecords, importRecord_eq hplaced hvalid]
    refine ⟨hcode, ?_⟩
    dsimp only
    rw [hread, hwrite]
    rfl

/-! ## The round trip -/

section

variable {records : List Record}

theorem SameRegions.totalSize_take (h : SameRegions process process') (i : ℕ) :
    totalSize (process'.blocks.take i) = totalSize (process.blocks.take i) := by
  rw [totalSize_eq, totalSize_eq, List.map_take, List.map_take, h.sizes]

/-- What a record of a complete export becomes. -/
theorem patch_of_record (hlayout : Describes layout process) (hslots : Separate layout)
    (hsame : SameRegions process process') (hexported : Exported order layout process state records)
    {record : Record} (hrecord : record ∈ records) :
    ∃ source target, Valid process' record source target ∧
      (patchOf order process' record).1 = layout.start record.region + record.offset ∧
      (patchOf order process' record).2 = order.encode 8 (target.address + record.targetOffset) ∧
      Corresponds process process' (pointerAt order state (layout.start record.region + record.offset))
        (target.address + record.targetOffset) := by
  obtain ⟨region, hregion, hoffset, hfind, -⟩ := hexported.sound record hrecord
  obtain ⟨block, hblock, hsize⟩ := hlayout.block hregion
  obtain ⟨source, hsource, hsize'⟩ := hsame.block hblock
  obtain ⟨block', hblock', hle, hlt, hplace⟩ := findTarget_eq_some hfind
  obtain ⟨target, htarget, hsize''⟩ := hsame.block hblock'
  have hfits := hslots.inside region (List.mem_of_getElem? hregion) record.offset hoffset
  refine ⟨source, target, ⟨hsource, htarget, by omega, by omega⟩, ?_, ?_, ?_⟩
  · rw [patchOf, hsame.totalSize_take, hlayout.start_eq]
  · rw [patchOf, htarget]
    rfl
  · exact ⟨record.targetRegion, block', target, hblock', htarget, hle, hlt, by rw [hplace]⟩

theorem mem_slots_of_record (hexported : Exported order layout process state records) {record : Record}
    (hrecord : record ∈ records) : layout.start record.region + record.offset ∈ layout.slots := by
  obtain ⟨region, hregion, hoffset, -⟩ := hexported.sound record hrecord
  exact mem_slots.2 ⟨record.region, region, record.offset, hregion, hoffset, rfl⟩

/-- Records of one pointer say the same. -/
theorem patchOf_congr (hexported : Exported order layout process state records) {record record' : Record}
    (hrecord : record ∈ records) (hrecord' : record' ∈ records)
    (h : layout.start record.region + record.offset = layout.start record'.region + record'.offset) :
    (patchOf order process' record).2 = (patchOf order process' record').2 := by
  obtain ⟨_, _, _, hfind, -⟩ := hexported.sound record hrecord
  obtain ⟨_, _, _, hfind', -⟩ := hexported.sound record' hrecord'
  rw [h, hfind'] at hfind
  obtain ⟨hregion, hoffset⟩ := Prod.mk.inj (Option.some.inj hfind)
  rw [patchOf, patchOf, hregion, hoffset]

theorem pointerAt_of_sliceAt {bytes word : List UInt8} {place : ℕ} (h : sliceAt bytes place 8 = some word) :
    pointerAt order bytes place = order.decode word := by
  rw [sliceAt] at h
  split at h
  · cases h
    rfl
  · cases h

theorem pointerAt_congr {bytes bytes' : List UInt8} {place : ℕ} (hlength : bytes'.length = bytes.length)
    (hfits : place + 8 ≤ bytes.length) (h : sliceAt bytes' place 8 = sliceAt bytes place 8) :
    pointerAt order bytes' place = pointerAt order bytes place := by
  rw [sliceAt, sliceAt, if_pos hfits, if_pos (hlength ▸ hfits)] at h
  rw [pointerAt, pointerAt, Option.some.inj h]

/-- The pointers that the records of a complete export leave in a checkpoint. -/
theorem imported_storeAll (hlayout : Describes layout process) (hslots : Separate layout)
    (hplaced' : Placed process') (hsame : SameRegions process process')
    (hlength : state.length = totalSize process.blocks)
    (hexported : Exported order layout process state records) :
    Imported order layout process process' state
      (storeAll state (records.map (patchOf order process'))) := by
  have hword : ∀ patch ∈ records.map (patchOf order process'), patch.2.length = 8 ∧ patch.1 ∈ layout.slots := by
    intro patch hpatch
    obtain ⟨record, hrecord, rfl⟩ := List.mem_map.1 hpatch
    obtain ⟨_, _, _, hplace, -⟩ := patch_of_record hlayout hslots hsame hexported hrecord
    rw [hplace]
    exact ⟨order.length_encode 8 _, mem_slots_of_record hexported hrecord⟩
  have hslotfits : ∀ slot ∈ layout.slots, slot + 8 ≤ state.length := by
    intro slot hslot
    obtain ⟨i, region, offset, hregion, hoffset, rfl⟩ := mem_slots.1 hslot
    rw [hlength]
    exact slot_fits hlayout hslots hregion hoffset
  have hfits : ∀ patch ∈ records.map (patchOf order process'), patch.1 + patch.2.length ≤ state.length := by
    intro patch hpatch
    rw [(hword patch hpatch).1]
    exact hslotfits patch.1 (hword patch hpatch).2
  refine ⟨length_storeAll hfits, ?_, ?_, ?_⟩
  · intro i hi
    apply getElem?_storeAll hfits
    intro patch hpatch
    rw [(hword patch hpatch).1]
    exact hi patch.1 (hword patch hpatch).2
  · intro slot hslot hnull
    rw [← hnull]
    apply pointerAt_congr (length_storeAll hfits) (hslotfits slot hslot)
    apply sliceAt_storeAll_of_apart hfits
    intro patch hpatch
    rw [(hword patch hpatch).1]
    apply (hslots.slots hslot (hword patch hpatch).2).resolve_left
    -- a null pointer has no record
    intro heq
    obtain ⟨record, hrecord, rfl⟩ := List.mem_map.1 hpatch
    obtain ⟨_, _, _, hplace, -⟩ := patch_of_record hlayout hslots hsame hexported hrecord
    obtain ⟨_, _, _, _, hne⟩ := hexported.sound record hrecord
    rw [← hplace, ← heq] at hne
    exact hne hnull
  · intro slot hslot hne
    obtain ⟨i, region, offset, hregion, hoffset, rfl⟩ := mem_slots.1 hslot
    obtain ⟨record, hrecord, rfl, rfl⟩ := hexported.all i region offset hregion hoffset hne
    obtain ⟨source, target, hvalid, hplace, hvalue, hcorresponds⟩ :=
      patch_of_record hlayout hslots hsame hexported hrecord
    have hmem := List.mem_map_of_mem (f := patchOf order process') hrecord
    have hslice := @sliceAt_storeAll state _ hfits (patchOf order process' record).1
      (patchOf order process' record).2 hmem (by
        intro patch hpatch
        obtain ⟨record', hrecord', rfl⟩ := List.mem_map.1 hpatch
        obtain ⟨_, _, _, hplace', -⟩ := patch_of_record hlayout hslots hsame hexported hrecord'
        have hlength' := (hword _ hpatch).1
        have hlength'' := (hword _ hmem).1
        rw [hlength', hlength'']
        rcases hslots.slots (hword _ hmem).2 (hword _ hpatch).2 with heq | hapart
        · left
          apply Prod.ext heq.symm
          apply patchOf_congr hexported hrecord' hrecord
          rw [← hplace', ← hplace, heq]
        · exact .inr hapart)
    rw [(hword _ hmem).1, hplace] at hslice
    have haddress : target.address + record.targetOffset < 256 ^ 8 := by
      have hle := hplaced'.fits target (List.mem_of_getElem? hvalid.target_eq)
      have hlt := hvalid.target_lt
      omega
    rw [pointerAt_of_sliceAt hslice, hvalue, order.decode_encode haddress]
    exact hcorresponds

end

/-- **A complete export is imported**: into a process that places the same regions elsewhere, with the
same bytes outside the pointers and pointers to the same places. -/
theorem roundTrip_of_separate (hlayout : Describes layout process) (hslots : Separate layout)
    (hplaced' : Placed process') (hsame : SameRegions process process')
    (hlength : state.length = semantistStateSize process) (hsize : state.length ≤ u64Max) (memory : Memory) :
    RoundTrip order layout process process' state memory := by
  intro hcomplete
  rw [stateSize_eq] at hlength
  have hexported := exported_of_complete hlayout hslots hlength hsize hcomplete
  have hvalid : ∀ record ∈ (snapshotRelocations order process layout state).records,
      ∃ source target, Valid process' record source target := by
    intro record hrecord
    obtain ⟨source, target, hvalid, -⟩ := patch_of_record hlayout hslots hsame hexported hrecord
    exact ⟨source, target, hvalid⟩
  have hlength' : state.length = totalSize process'.blocks := by
    rw [hlength, totalSize_eq, totalSize_eq, hsame.sizes]
  obtain ⟨hcode, hread⟩ := importRecords_eq hplaced' hvalid (writeAll process'.blocks state memory)
  rw [readAll_writeAll hplaced'.apart hlength'] at hread
  rw [semantistImportState, restore_eq]
  refine ⟨hcode, ?_⟩
  rw [checkpoint_eq, hread]
  exact imported_storeAll hlayout hslots hplaced' hsame hlength hexported

end

/-! ## Pointers across the end of a region, and across each other -/

/-- A process with one region and its harness state. -/
def processAt (target harness : Block) : Process where
  targets := [target]
  harness := harness

theorem placed_processAt {target harness : Block} (hapart : target.Apart harness)
    (htarget : target.address + target.size ≤ 2 ^ 64) (hharness : harness.address + harness.size ≤ 2 ^ 64) :
    Placed (processAt target harness) := by
  constructor
  · exact List.pairwise_pair.2 hapart
  · intro block hblock
    rcases List.mem_pair.1 hblock with rfl | rfl
    · exact htarget
    · exact hharness

theorem roundTrip_moved :
    RoundTrip .little
      { harnessRegionIndex := some 1
        regions := [{ index := 0, size := 16, pointerOffsets := [8] },
          { index := 1, size := 8, pointerOffsets := [] }] }
      (processAt ⟨0x1000, 16⟩ ⟨0x2000, 8⟩) (processAt ⟨0x3000, 16⟩ ⟨0x1000, 8⟩)
      (List.replicate 8 0 ++ [4, 0x10] ++ List.replicate 14 0) fun _ => 0 := by
  apply roundTrip_of_separate
  · exact ⟨rfl, rfl, rfl⟩
  · exact ⟨by decide, by decide⟩
  · exact placed_processAt (by decide) (by decide) (by decide)
  · exact ⟨rfl, rfl⟩
  · decide
  · decide

theorem not_roundTrip :
    (let layout : Layout :=
        { harnessRegionIndex := some 1
          regions := [{ index := 0, size := 12, pointerOffsets := [8] },
            { index := 1, size := 16, pointerOffsets := [] }] }
      let process := processAt ⟨0x1000, 12⟩ ⟨0x2000, 16⟩
      let state := List.replicate 8 0 ++ [4, 0x10] ++ List.replicate 18 0
      Describes layout process ∧ Placed process ∧ state.length = semantistStateSize process ∧
        ¬RoundTrip .little layout process process state fun _ => 0) ∧
    (let layout : Layout :=
        { harnessRegionIndex := some 1
          regions := [{ index := 0, size := 16, pointerOffsets := [0, 4] },
            { index := 1, size := 8, pointerOffsets := [] }] }
      let process := processAt ⟨0x101010101010101, 16⟩ ⟨0x2000, 8⟩
      let process' := processAt ⟨0x200000001, 16⟩ ⟨0x2000, 8⟩
      let state := List.replicate 12 1 ++ List.replicate 12 0
      Describes layout process ∧ Placed process ∧ Placed process' ∧ SameRegions process process' ∧
        state.length = semantistStateSize process ∧
        ¬RoundTrip .little layout process process' state fun _ => 0) := by
  refine ⟨⟨⟨rfl, rfl, rfl⟩, placed_processAt (by decide) (by decide) (by decide), by decide, ?_⟩,
    ⟨rfl, rfl, rfl⟩, placed_processAt (by decide) (by decide) (by decide),
    placed_processAt (by decide) (by decide) (by decide), ⟨rfl, rfl⟩, by decide, ?_⟩
  · intro h
    have hcode := (h (by decide +kernel)).1
    revert hcode
    decide +kernel
  · intro h
    obtain ⟨-, -, -, -, hmoved⟩ := h (by decide +kernel)
    obtain ⟨i, block, block', hblock, hblock', hle, hlt, heq⟩ :=
      hmoved 0 (by decide +kernel) (by decide +kernel)
    rcases i with _ | _ | i
    · cases hblock
      cases hblock'
      revert heq
      decide +kernel
    · cases hblock
      revert hlt
      decide +kernel
    · cases hblock

end SemantiST.Snapshot
