import SemantiST.Lib.Map
import SemantiST.Lib.Memory
import SemantiST.Lib.Rust

/-!
# Exporting and importing a snapshot

`snapshot_relocations` (`fuzzer/engine/src/v3.rs`) turns the pointers in a checkpoint into places in
regions; `semantist_import_state` (`compiler/harness/v3gen.py`) restores a checkpoint and makes them
pointers of its own process.
-/

namespace SemantiST.Snapshot

open Lib

/-! ## Processes -/

/-- The regions of the state of a process, and its harness state. -/
structure Process where
  targets : List Block
  harness : Block

/-- All regions in the order of a checkpoint. -/
def Process.blocks (process : Process) : List Block := process.targets ++ [process.harness]

def semantistStateSize (process : Process) : ℕ := process.harness.size + totalSize process.targets

def semantistCheckpoint (process : Process) (memory : Memory) : List UInt8 :=
  readAll memory process.targets ++ memory.read process.harness.address process.harness.size

def semantistRestore (process : Process) (blob : List UInt8) (memory : Memory) : Memory :=
  (writeAll process.targets blob memory).write process.harness.address
    ((blob.drop (totalSize process.targets)).take process.harness.size)

/-! ## Layouts -/

structure Region where
  index : ℕ
  size : ℕ
  pointerOffsets : List ℕ

structure Layout where
  harnessRegionIndex : Option ℕ
  regions : List Region

/-- A pointer in a region, as a place in a region. -/
structure Record where
  region : ℕ
  offset : ℕ
  targetRegion : ℕ
  targetOffset : ℕ
deriving DecidableEq

/-! ## Exporting -/

inductive Missing where
  | outsideCheckpoint (region offset : ℕ)
  | outsideRegions (region offset : ℕ)
deriving DecidableEq

/-- Why no complete relocation of a checkpoint is known. -/
inductive Reason where
  | layoutMismatch
  | targetWithoutAddress (index : ℕ)
  | harnessWithoutAddress
  | missing (slots : List Missing)
deriving DecidableEq

structure Relocations where
  records : List Record
  complete : Bool
  reason : Option Reason
deriving DecidableEq

/-- The start of each region in a checkpoint. -/
def regionOffsets : ℕ → List Region → List (ℕ × ℕ)
  | _, [] => []
  | cursor, region :: rest => (region.index, cursor) :: regionOffsets (saturatingAdd cursor region.size) rest

def regionsEnd (regions : List Region) : ℕ :=
  regions.foldl (fun cursor region => saturatingAdd cursor region.size) 0

/-- The region that holds an address, and where. -/
def findTarget (targets : List (ℕ × Block)) (address : ℕ) : Option (ℕ × ℕ) :=
  targets.findSome? fun (index, block) =>
    if u64Max < block.address + block.size then none
    else if block.address ≤ address ∧ address < block.address + block.size then
      some (index, address - block.address)
    else none

inductive SlotResult where
  | null
  | record (record : Record)
  | missing (slot : Missing)

variable (order : ByteOrder)

/-- What is known of one pointer of a region. -/
def exportSlot (targets : List (ℕ × Block)) (sourceBase : ℕ) (state : List UInt8) (region offset : ℕ) :
    SlotResult :=
  let sourceOffset := saturatingAdd sourceBase offset
  if sourceBase = u64Max ∨ u64Max < sourceOffset + 8 ∨ state.length < sourceOffset + 8 then
    .missing (.outsideCheckpoint region offset)
  else
    let address := order.decode ((state.drop sourceOffset).take 8)
    if address = 0 then .null
    else
      match findTarget targets address with
      | some (targetRegion, targetOffset) => .record { region, offset, targetRegion, targetOffset }
      | none => .missing (.outsideRegions region offset)

def SlotResult.record? : SlotResult → Option Record
  | .record entry => some entry
  | _ => none

def SlotResult.missing? : SlotResult → Option Missing
  | .missing slot => some slot
  | _ => none

def snapshotRelocations (process : Process) (layout : Layout) (state : List UInt8) : Relocations :=
  let targetCount := process.targets.length
  let harnessIndex := layout.harnessRegionIndex.getD targetCount
  let offsets := insertAll ∅ (regionOffsets 0 layout.regions)
  if regionsEnd layout.regions > state.length ∨ targetCount > harnessIndex then
    { records := [], complete := false, reason := some .layoutMismatch }
  else
    match process.targets.findIdx? fun block => block.address = 0 ∨ block.size = 0 with
    | some index => { records := [], complete := false, reason := some (.targetWithoutAddress index) }
    | none =>
      let harness := layout.regions.find? fun region => region.index = harnessIndex
      if harness.any fun region => process.harness.address = 0 ∨ region.size = 0 then
        { records := [], complete := false, reason := some .harnessWithoutAddress }
      else
        let targets := (process.targets.zipIdx.map Prod.swap) ++
          (harness.map fun region => (harnessIndex, { process.harness with size := region.size })).toList
        let results := layout.regions.flatMap fun region => region.pointerOffsets.map fun offset =>
          exportSlot order targets (offsets[region.index]?.getD u64Max) state region.index offset
        let missing := results.filterMap SlotResult.missing?
        if missing = [] then
          { records := results.filterMap SlotResult.record?, complete := true, reason := none }
        else
          { records := results.filterMap SlotResult.record?, complete := false
            reason := some (.missing missing) }

/-! ## Importing -/

def regionAt (process : Process) (index : ℕ) : Option Block :=
  if index = process.targets.length then some process.harness else process.targets[index]?

/-- One record of `semantist_import_state`; sizes and addresses wrap as those of the machine. -/
def importRecord (process : Process) (memory : Memory) (record : Record) : Option Memory :=
  match regionAt process record.region, regionAt process record.targetRegion with
  | some source, some target =>
    if source.size = 0 ∨ target.size = 0 ∨ (source.size + 2 ^ 64 - 8) % 2 ^ 64 < record.offset ∨
        target.size ≤ record.targetOffset then none
    else
      let address := (target.address + record.targetOffset) % 2 ^ 64
      some (memory.write (source.address + record.offset) (order.encode 8 address))
  | _, _ => none

/-- The records in turn; the first that is refused ends the import with 2. -/
def importRecords (process : Process) : Memory → List Record → ℕ × Memory
  | memory, [] => (0, memory)
  | memory, record :: rest =>
    match importRecord order process memory record with
    | none => (2, memory)
    | some memory' => importRecords process memory' rest

def semantistImportState (process : Process) (blob : List UInt8) (records : List Record) (memory : Memory) :
    ℕ × Memory :=
  importRecords order process (semantistRestore process blob memory) records

end SemantiST.Snapshot
