import SemantiST.Snapshot.RoundTrip

/-!
# What an import leaves

`semantist_import_state` restores the blob before it looks at the records, and stops at the first record that it
refuses.  The memory it leaves then, whatever the records say.
-/

namespace SemantiST.Snapshot

open Lib

/-! ## Records that are applied -/

/-- The pointer lies in the source region, and its target in the target region. -/
def Record.inRegions (process : Process) (record : Record) : Bool :=
  match process.blocks[record.region]?, process.blocks[record.targetRegion]? with
  | some source, some target => record.offset + 8 ≤ source.size && record.targetOffset < target.size
  | _, _ => false

/-- The records before the first that is refused. -/
def applied (process : Process) (records : List Record) : List Record := records.takeWhile (Record.inRegions process)

/-- An address that is in no region of the process. -/
def Outside (process : Process) (a : ℕ) : Prop :=
  ∀ block ∈ process.blocks, ¬(block.address ≤ a ∧ a < block.address + block.size)

/-- Every source region that a record names is empty or has room for a pointer. -/
def RoomForPointers (process : Process) (records : List Record) : Prop :=
  ∀ record ∈ records, ∀ source, process.blocks[record.region]? = some source → source.size = 0 ∨ 8 ≤ source.size

variable (order : ByteOrder)

/-- `semantist_import_state`, with the blob that may be null. -/
def importState (process : Process) (blob : Option (List UInt8)) (records : List Record) (memory : Memory) :
    ℕ × Memory :=
  match blob with
  | none => (1, memory)
  | some blob => semantistImportState order process blob records memory

section Applied

variable {order : ByteOrder} {process : Process} {record : Record} {records : List Record} {memory : Memory}

theorem inRegions_iff : record.inRegions process = true ↔ ∃ source target, Valid process record source target := by
  rw [Record.inRegions]
  constructor
  · intro h
    split at h
    · rename_i source target hsource htarget
      rw [Bool.and_eq_true, decide_eq_true_eq, decide_eq_true_eq] at h
      exact ⟨source, target, hsource, htarget, h.1, h.2⟩
    · cases h
  · rintro ⟨source, target, h⟩
    rw [h.source_eq, h.target_eq]
    simpa using ⟨h.offset_le, h.target_lt⟩

theorem mem_applied (h : record ∈ applied process records) : ∃ source target, Valid process record source target :=
  inRegions_iff.1 (List.mem_takeWhile_imp h)

/-- A record that is not in the regions is refused, as long as the size of its source region does not wrap. -/
theorem importRecord_eq_none (hplaced : Placed process)
    (hroom : ∀ source, process.blocks[record.region]? = some source → source.size = 0 ∨ 8 ≤ source.size)
    (h : record.inRegions process = false) (memory : Memory) : importRecord order process memory record = none := by
  rw [importRecord, regionAt_eq, regionAt_eq]
  split
  · rename_i source target hsource htarget
    have hsize := hroom source hsource
    have hfits := hplaced.fits source (List.mem_of_getElem? hsource)
    have hout : ¬(record.offset + 8 ≤ source.size ∧ record.targetOffset < target.size) := by
      simpa [Record.inRegions, hsource, htarget] using h
    exact if_pos (by omega)
  · rfl

/-- The records after one that is refused do not count. -/
theorem importRecords_refused (hplaced : Placed process)
    (hvalid : ∀ record ∈ records, ∃ source target, Valid process record source target) (refused : Record)
    (hrefused : ∀ memory, importRecord order process memory refused = none) (rest : List Record) (memory : Memory) :
    importRecords order process memory (records ++ refused :: rest) =
      (2, (importRecords order process memory records).2) := by
  induction records generalizing memory with
  | nil => simp only [List.nil_append, importRecords, hrefused]
  | cons record records ih =>
    obtain ⟨⟨source, target, hrecord⟩, hrest⟩ := List.forall_mem_cons.1 hvalid
    rw [List.cons_append, importRecords, importRecords, importRecord_eq hplaced hrecord]
    exact ih hrest _

theorem write_outside {a address : ℕ} {bytes : List UInt8} (h : ¬(address ≤ a ∧ a < address + bytes.length)) :
    memory.write address bytes a = memory a := if_neg h

/-- Records in their regions leave everything else alone. -/
theorem importRecords_outside (hplaced : Placed process)
    (hvalid : ∀ record ∈ records, ∃ source target, Valid process record source target) {a : ℕ}
    (ha : Outside process a) (memory : Memory) : (importRecords order process memory records).2 a = memory a := by
  induction records generalizing memory with
  | nil => rfl
  | cons record records ih =>
    obtain ⟨⟨source, target, hrecord⟩, hrest⟩ := List.forall_mem_cons.1 hvalid
    rw [importRecords, importRecord_eq hplaced hrecord]
    refine (ih hrest _).trans (write_outside ?_)
    have hsource := ha source (List.mem_of_getElem? hrecord.source_eq)
    have hlength : (patchOf order process record).2.length = 8 := order.length_encode 8 _
    have hoffset := hrecord.offset_le
    omega

theorem writeAll_outside {blocks : List Block} {a : ℕ}
    (ha : ∀ block ∈ blocks, ¬(block.address ≤ a ∧ a < block.address + block.size)) (buffer : List UInt8)
    (memory : Memory) : writeAll blocks buffer memory a = memory a := by
  induction blocks generalizing buffer memory with
  | nil => rfl
  | cons block blocks ih =>
    obtain ⟨hblock, hrest⟩ := List.forall_mem_cons.1 ha
    refine (ih hrest _ _).trans (write_outside ?_)
    have hlength : (buffer.take block.size).length ≤ block.size := List.length_take_le _ _
    omega

end Applied

/-! ## The import -/

variable {order : ByteOrder} {process : Process} {records : List Record}

/-- What an import of a blob has done when it returns. -/
structure ImportedUpTo (order : ByteOrder) (process : Process) (blob : List UInt8) (records : List Record)
    (memory : Memory) (result : ℕ × Memory) : Prop where
  /-- The import fails exactly when a record is refused. -/
  code : result.1 = if applied process records = records then 0 else 2
  /-- Every pointer that is written lies in its source region. -/
  inBounds : ∀ record ∈ applied process records, ∃ source target, Valid process record source target
  state : readAll result.2 process.blocks = storeAll blob ((applied process records).map (patchOf order process))
  outside : ∀ a, Outside process a → result.2 a = memory a

/-- **An import writes no pointer outside its source region**, and without a blob it changes nothing.  A record that is
refused leaves the restored state, with the pointers of the records before it. -/
theorem import_in_bounds (hplaced : Placed process) (hroom : RoomForPointers process records) (memory : Memory) :
    importState order process none records memory = (1, memory) ∧
      ∀ blob : List UInt8, blob.length = semantistStateSize process →
        ImportedUpTo order process blob records memory (importState order process (some blob) records memory) := by
  refine ⟨rfl, fun blob hblob => ?_⟩
  rw [importState, semantistImportState, restore_eq]
  rw [stateSize_eq] at hblob
  have hvalid : ∀ record ∈ applied process records, ∃ source target, Valid process record source target :=
    fun record hrecord => mem_applied hrecord
  obtain ⟨hcode, hstate⟩ := @importRecords_eq order process hplaced _ hvalid (writeAll process.blocks blob memory)
  rw [readAll_writeAll hplaced.apart hblob] at hstate
  have hresult : importRecords order process (writeAll process.blocks blob memory) records =
      (if applied process records = records then 0 else 2,
        (importRecords order process (writeAll process.blocks blob memory) (applied process records)).2) := by
    have hsplit := List.takeWhile_append_dropWhile (p := Record.inRegions process) (l := records)
    rcases hrest : records.dropWhile (Record.inRegions process) with _ | ⟨refused, rest⟩
    · rw [hrest, List.append_nil] at hsplit
      rw [applied, hsplit, if_pos rfl]
      rw [applied, hsplit] at hcode
      exact Prod.ext hcode rfl
    · rw [hrest] at hsplit
      have hrefused : refused.inRegions process = false := by
        have hhead := List.head?_dropWhile_not (Record.inRegions process) records
        rw [hrest] at hhead
        simpa using hhead
      have hmem : refused ∈ records := hsplit ▸ List.mem_append_right _ List.mem_cons_self
      have hne : applied process records ≠ records := by
        intro heq
        have hlength := congrArg List.length hsplit
        rw [show records.takeWhile (Record.inRegions process) = records from heq, List.length_append, List.length_cons]
          at hlength
        omega
      rw [if_neg hne]
      conv_lhs => rw [← hsplit]
      exact importRecords_refused hplaced hvalid refused (importRecord_eq_none hplaced (hroom refused hmem) hrefused) rest _
  rw [hresult]
  refine ⟨rfl, hvalid, hstate, fun a ha => ?_⟩
  exact (importRecords_outside hplaced hvalid ha _).trans (writeAll_outside ha blob memory)

/-- A pointer to the harness state, and one that does not fit in its region. -/
theorem import_in_bounds_refused :
    let process := processAt ⟨0x1000, 16⟩ ⟨0x2000, 8⟩
    ImportedUpTo .little process (List.replicate 24 1) [⟨0, 8, 1, 0⟩, ⟨0, 9, 1, 0⟩] (fun _ => 0)
      (importState .little process (some (List.replicate 24 1)) [⟨0, 8, 1, 0⟩, ⟨0, 9, 1, 0⟩] fun _ => 0) := by
  refine (import_in_bounds (placed_processAt (by decide) (by decide) (by decide)) ?_ _).2 _ (by decide)
  intro record hrecord source hsource
  rcases List.mem_pair.1 hrecord with rfl | rfl <;> cases hsource <;> decide

/-- A refused record leaves the restored state, and a region that is smaller than a pointer is written past its end. -/
theorem import_not_atomic :
    (let process := processAt ⟨0x1000, 16⟩ ⟨0x2000, 8⟩
      let result := importState .little process (some (List.replicate 24 1)) [⟨0, 9, 1, 0⟩] fun _ => 0
      Placed process ∧ result.1 = 2 ∧ readAll result.2 process.blocks ≠ readAll (fun _ => 0) process.blocks) ∧
    (let process := processAt ⟨0x1000, 4⟩ ⟨0x2000, 8⟩
      let result := importState .little process (some (List.replicate 12 1)) [⟨0, 0, 1, 0⟩] fun _ => 1
      Placed process ∧ result.1 = 0 ∧ Outside process 0x1004 ∧ result.2 0x1004 ≠ 1) := by
  refine ⟨⟨placed_processAt (by decide) (by decide) (by decide), by decide +kernel, by decide +kernel⟩,
    placed_processAt (by decide) (by decide) (by decide), by decide +kernel, ?_, by decide +kernel⟩
  intro block hblock
  rcases List.mem_pair.1 hblock with rfl | rfl <;> decide

end SemantiST.Snapshot
