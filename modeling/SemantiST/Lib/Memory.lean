import Mathlib.Data.List.Basic
import Mathlib.Data.List.Induction
import SemantiST.Lib.Bytes

/-!
# Flat memory

Bytes at addresses, blocks of them that lie apart, and a buffer that is copied from all blocks and
back.  A buffer in which words are stored at several places.
-/

namespace SemantiST.Lib

/-! ## Memory -/

abbrev Memory := ℕ → UInt8

namespace Memory

def read (memory : Memory) (address size : ℕ) : List UInt8 :=
  (List.range size).map fun i => memory (address + i)

def write (memory : Memory) (address : ℕ) (bytes : List UInt8) : Memory :=
  fun a => if address ≤ a ∧ a < address + bytes.length then bytes.getD (a - address) 0 else memory a

end Memory

variable {memory : Memory} {address size offset : ℕ} {bytes : List UInt8}

@[simp]
theorem length_read : (memory.read address size).length = size := by
  rw [Memory.read, List.length_map, List.length_range]

theorem getElem?_read {i : ℕ} (h : i < size) :
    (memory.read address size)[i]? = some (memory (address + i)) := by
  rw [Memory.read, List.getElem?_map, List.getElem?_range h, Option.map_some]

theorem getElem?_storeAt {word : List UInt8} (h : offset + word.length ≤ bytes.length) (i : ℕ) :
    (storeAt bytes offset word)[i]? =
      if offset ≤ i ∧ i < offset + word.length then word[i - offset]? else bytes[i]? := by
  have htake : (bytes.take offset).length = offset := by
    rw [List.length_take]
    omega
  rw [storeAt, List.append_assoc]
  by_cases hbefore : i < offset
  · rw [if_neg (by omega), List.getElem?_append_left (by omega), List.getElem?_take, if_pos hbefore]
  · rw [List.getElem?_append_right (by omega), htake]
    by_cases hin : i < offset + word.length
    · rw [if_pos ⟨by omega, hin⟩, List.getElem?_append_left (by omega)]
    · rw [if_neg (by omega), List.getElem?_append_right (by omega), List.getElem?_drop]
      congr 1
      omega

/-- What is written into a range is stored in what is read from it. -/
theorem read_write (h : offset + bytes.length ≤ size) :
    (memory.write (address + offset) bytes).read address size =
      storeAt (memory.read address size) offset bytes := by
  apply List.ext_getElem?
  intro i
  rw [getElem?_storeAt (by rw [length_read]; exact h)]
  by_cases hi : i < size
  · rw [getElem?_read hi, getElem?_read hi, Memory.write]
    by_cases hin : offset ≤ i ∧ i < offset + bytes.length
    · rw [if_pos (by omega), if_pos hin, show address + i - (address + offset) = i - offset by omega,
        List.getD_eq_getElem?_getD, List.getElem?_eq_getElem (by omega), Option.getD_some]
    · rw [if_neg (by omega), if_neg hin]
  · rw [if_neg (by omega), List.getElem?_eq_none (by rw [length_read]; omega),
      List.getElem?_eq_none (by rw [length_read]; omega)]

theorem read_write_self (memory : Memory) (address : ℕ) (bytes : List UInt8) :
    (memory.write address bytes).read address bytes.length = bytes := by
  have h := @read_write memory address bytes.length 0 bytes (by omega)
  rw [Nat.add_zero] at h
  rw [h, storeAt, List.take_zero, List.nil_append, Nat.zero_add,
    List.drop_of_length_le (by rw [length_read]), List.append_nil]

theorem read_write_apart {address' : ℕ}
    (h : address + size ≤ address' ∨ address' + bytes.length ≤ address) :
    (memory.write address' bytes).read address size = memory.read address size := by
  apply List.ext_getElem?
  intro i
  by_cases hi : i < size
  · rw [getElem?_read hi, getElem?_read hi, Memory.write, if_neg (by omega)]
  · rw [List.getElem?_eq_none (by rw [length_read]; omega),
      List.getElem?_eq_none (by rw [length_read]; omega)]

/-! ## Blocks -/

structure Block where
  address : ℕ
  size : ℕ
deriving DecidableEq

def Block.Apart (a b : Block) : Prop := a.address + a.size ≤ b.address ∨ b.address + b.size ≤ a.address

instance (a b : Block) : Decidable (a.Apart b) := inferInstanceAs (Decidable (_ ∨ _))

def totalSize (blocks : List Block) : ℕ := (blocks.map Block.size).sum

def readAll (memory : Memory) (blocks : List Block) : List UInt8 :=
  blocks.flatMap fun block => memory.read block.address block.size

/-- The consecutive parts of a buffer, each written to its block. -/
def writeAll : List Block → List UInt8 → Memory → Memory
  | [], _, memory => memory
  | block :: rest, buffer, memory =>
    writeAll rest (buffer.drop block.size) (memory.write block.address (buffer.take block.size))

section

variable {blocks : List Block} {buffer : List UInt8}

theorem read_writeAll_apart {block : Block} (h : ∀ block' ∈ blocks, block.Apart block') :
    (writeAll blocks buffer memory).read block.address block.size =
      memory.read block.address block.size := by
  induction blocks generalizing buffer memory with
  | nil => rfl
  | cons first blocks ih =>
    obtain ⟨hfirst, hrest⟩ := List.forall_mem_cons.1 h
    rw [writeAll, ih hrest]
    apply read_write_apart
    have hlength : (buffer.take first.size).length ≤ first.size := by
      rw [List.length_take]
      omega
    rcases hfirst with hbefore | hafter
    · exact .inl hbefore
    · right
      omega

/-- What is copied to all blocks is read back. -/
theorem readAll_writeAll (h : blocks.Pairwise Block.Apart) (hlength : buffer.length = totalSize blocks) :
    readAll (writeAll blocks buffer memory) blocks = buffer := by
  induction blocks generalizing buffer memory with
  | nil =>
    rw [List.length_eq_zero_iff.1 hlength]
    rfl
  | cons block blocks ih =>
    obtain ⟨hapart, hrest⟩ := List.pairwise_cons.1 h
    rw [totalSize, List.map_cons, List.sum_cons] at hlength
    have htake : (buffer.take block.size).length = block.size := by
      rw [List.length_take]
      omega
    have hread := read_write_self memory block.address (buffer.take block.size)
    rw [htake] at hread
    rw [readAll, List.flatMap_cons, writeAll, read_writeAll_apart hapart, hread]
    have hrest' : readAll (writeAll blocks (buffer.drop block.size)
        (memory.write block.address (buffer.take block.size))) blocks = buffer.drop block.size :=
      ih hrest (by rw [List.length_drop, hlength, totalSize]; omega)
    rw [readAll] at hrest'
    rw [hrest', List.take_append_drop]

theorem readAll_write_apart {bytes : List UInt8}
    (h : ∀ block ∈ blocks, block.Apart ⟨address, bytes.length⟩) :
    readAll (memory.write address bytes) blocks = readAll memory blocks :=
  List.flatMap_congr fun block hblock => read_write_apart (h block hblock)

theorem storeAt_append_left {before after word : List UInt8} (h : offset + word.length ≤ before.length) :
    storeAt (before ++ after) offset word = storeAt before offset word ++ after := by
  rw [storeAt, storeAt, List.take_append_of_le_length (by omega), List.drop_append_of_le_length (by omega),
    List.append_assoc, List.append_assoc, List.append_assoc]

theorem storeAt_append_right (before after word : List UInt8) :
    storeAt (before ++ after) (before.length + offset) word = before ++ storeAt after offset word := by
  rw [storeAt, storeAt, List.take_length_add_append, Nat.add_assoc, List.drop_length_add_append]
  simp only [List.append_assoc]

/-- A write into one block is a store into the buffer of all. -/
theorem readAll_write (h : blocks.Pairwise Block.Apart) {i : ℕ} {block : Block}
    (hblock : blocks[i]? = some block) (hfits : offset + bytes.length ≤ block.size) :
    readAll (memory.write (block.address + offset) bytes) blocks =
      storeAt (readAll memory blocks) (totalSize (blocks.take i) + offset) bytes := by
  induction blocks generalizing i with
  | nil => cases hblock
  | cons first blocks ih =>
    obtain ⟨hapart, hrest⟩ := List.pairwise_cons.1 h
    rw [readAll, List.flatMap_cons, readAll, List.flatMap_cons]
    cases i with
    | zero =>
      cases hblock
      have hothers : readAll (memory.write (block.address + offset) bytes) blocks = readAll memory blocks := by
        apply readAll_write_apart
        intro block' hblock'
        rcases hapart block' hblock' with hbefore | hafter
        · exact .inr (show block.address + offset + bytes.length ≤ block'.address by omega)
        · exact .inl (show block'.address + block'.size ≤ block.address + offset by omega)
      rw [readAll, readAll] at hothers
      rw [read_write hfits, hothers, List.take_zero, totalSize, List.map_nil, List.sum_nil, Nat.zero_add,
        storeAt_append_left (by rw [length_read]; exact hfits)]
    | succ i =>
      rw [List.getElem?_cons_succ] at hblock
      have hmem := List.mem_of_getElem? hblock
      have hfirst : (memory.write (block.address + offset) bytes).read first.address first.size =
          memory.read first.address first.size := by
        apply read_write_apart
        rcases hapart block hmem with hbefore | hafter
        · exact .inl (by omega)
        · exact .inr (by omega)
      have hothers := ih hrest hblock
      rw [readAll, readAll] at hothers
      have hsize : totalSize ((first :: blocks).take (i + 1)) =
          (memory.read first.address first.size).length + totalSize (blocks.take i) := by
        rw [length_read]
        rfl
      rw [hfirst, hothers, hsize, Nat.add_assoc, storeAt_append_right]

end

/-! ## Words at several places -/

/-- The buffer with all the words, each at its place. -/
def storeAll (bytes : List UInt8) (patches : List (ℕ × List UInt8)) : List UInt8 :=
  patches.foldl (fun bytes patch => storeAt bytes patch.1 patch.2) bytes

section

variable {patches : List (ℕ × List UInt8)}

theorem storeAll_append (bytes : List UInt8) (patches : List (ℕ × List UInt8)) (patch : ℕ × List UInt8) :
    storeAll bytes (patches ++ [patch]) = storeAt (storeAll bytes patches) patch.1 patch.2 := by
  rw [storeAll, List.foldl_append]
  rfl

theorem length_storeAll (h : ∀ patch ∈ patches, patch.1 + patch.2.length ≤ bytes.length) :
    (storeAll bytes patches).length = bytes.length := by
  induction patches using List.reverseRecOn with
  | nil => rfl
  | append_singleton patches patch ih =>
    obtain ⟨hpatches, hpatch⟩ := List.forall_mem_append.1 h
    have hlength := ih hpatches
    rw [storeAll_append, length_storeAt (by rw [hlength]; exact hpatch patch (List.mem_singleton_self _)), hlength]

theorem getElem?_storeAll (h : ∀ patch ∈ patches, patch.1 + patch.2.length ≤ bytes.length) {i : ℕ}
    (hout : ∀ patch ∈ patches, ¬(patch.1 ≤ i ∧ i < patch.1 + patch.2.length)) :
    (storeAll bytes patches)[i]? = bytes[i]? := by
  induction patches using List.reverseRecOn with
  | nil => rfl
  | append_singleton patches patch ih =>
    obtain ⟨hpatches, hpatch⟩ := List.forall_mem_append.1 h
    obtain ⟨hout', hout''⟩ := List.forall_mem_append.1 hout
    rw [storeAll_append, getElem?_storeAt (by
        rw [length_storeAll hpatches]
        exact hpatch patch (List.mem_singleton_self _)),
      if_neg (hout'' patch (List.mem_singleton_self _)), ih hpatches hout']

/-- A place that no word touches. -/
theorem sliceAt_storeAll_of_apart (h : ∀ patch ∈ patches, patch.1 + patch.2.length ≤ bytes.length) {place n : ℕ}
    (hapart : ∀ patch ∈ patches, place + n ≤ patch.1 ∨ patch.1 + patch.2.length ≤ place) :
    sliceAt (storeAll bytes patches) place n = sliceAt bytes place n := by
  induction patches using List.reverseRecOn with
  | nil => rfl
  | append_singleton patches patch ih =>
    obtain ⟨hpatches, hpatch⟩ := List.forall_mem_append.1 h
    obtain ⟨hapart', hapart''⟩ := List.forall_mem_append.1 hapart
    rw [storeAll_append, sliceAt_storeAt_of_disjoint (by
        rw [length_storeAll hpatches]
        exact hpatch patch (List.mem_singleton_self _))
      (hapart'' patch (List.mem_singleton_self _)), ih hpatches hapart']

/-- A word stays where it is stored when no other is stored across it. -/
theorem sliceAt_storeAll (h : ∀ patch ∈ patches, patch.1 + patch.2.length ≤ bytes.length) {place : ℕ}
    {word : List UInt8} (hmem : (place, word) ∈ patches)
    (hapart : ∀ patch ∈ patches, patch = (place, word) ∨ place + word.length ≤ patch.1 ∨
      patch.1 + patch.2.length ≤ place) :
    sliceAt (storeAll bytes patches) place word.length = some word := by
  induction patches using List.reverseRecOn with
  | nil => cases hmem
  | append_singleton patches patch ih =>
    obtain ⟨hpatches, hpatch⟩ := List.forall_mem_append.1 h
    obtain ⟨hapart', hapart''⟩ := List.forall_mem_append.1 hapart
    have hfits : patch.1 + patch.2.length ≤ (storeAll bytes patches).length := by
      rw [length_storeAll hpatches]
      exact hpatch patch (List.mem_singleton_self _)
    rw [storeAll_append]
    by_cases hlast : patch = (place, word)
    · rw [hlast] at hfits ⊢
      exact sliceAt_storeAt hfits
    · have hbefore : (place, word) ∈ patches := by
        rcases List.mem_append.1 hmem with hmem | hmem
        · exact hmem
        · exact absurd (List.mem_singleton.1 hmem).symm hlast
      rw [sliceAt_storeAt_of_disjoint hfits
        ((hapart'' patch (List.mem_singleton_self _)).resolve_left hlast), ih hpatches hbefore hapart']

end

end SemantiST.Lib
