import Mathlib.Data.List.Basic
import Mathlib.Data.List.GetD
import Mathlib.Data.Nat.Bitwise

/-!
# Bits of bytes

The bits of a list of bytes, counted from the lowest bit of the first byte, and what a byte that
is replaced changes of them.
-/

namespace SemantiST.Lib

/-- Bit `i` of the bytes; past the end all bits are clear. -/
def bitAt (bytes : List UInt8) (i : ℕ) : Bool := (bytes.getD (i / 8) 0).toNat.testBit (i % 8)

variable {bytes : List UInt8} {index i : ℕ} {byte : UInt8}

/-- The bits of a byte that is replaced are those of the new byte, all others stay. -/
theorem bitAt_set (h : index < bytes.length) :
    bitAt (bytes.set index byte) i = if i / 8 = index then byte.toNat.testBit (i % 8) else bitAt bytes i := by
  unfold bitAt
  split
  · rename_i hi
    rw [hi, List.getD_eq_getElem?_getD, List.getElem?_set_self h, Option.getD_some]
  · rename_i hi
    rw [List.getD_eq_getElem?_getD, List.getElem?_set_ne (Ne.symm hi), ← List.getD_eq_getElem?_getD]

theorem bitAt_replicate {n : ℕ} (h : i < 8 * n) : bitAt (List.replicate n byte) i = byte.toNat.testBit (i % 8) := by
  rw [bitAt, List.getD_replicate _ (by omega)]

theorem bitAt_append_left {bytes' : List UInt8} (h : i < 8 * bytes.length) :
    bitAt (bytes ++ bytes') i = bitAt bytes i := by
  rw [bitAt, List.getD_append _ _ _ _ (by omega), bitAt]

theorem bitAt_append_right {bytes' : List UInt8} (h : 8 * bytes.length ≤ i) :
    bitAt (bytes ++ bytes') i = bitAt bytes' (i - 8 * bytes.length) := by
  rw [bitAt, List.getD_append_right _ _ _ _ (by omega), bitAt]
  congr 1
  · congr 2
    omega
  · omega

/-- The `width` bits of a byte from `offset` on. -/
def maskOf (width offset : ℕ) : ℕ := (2 ^ width - 1) <<< offset

theorem testBit_maskOf {width offset : ℕ} :
    (maskOf width offset).testBit i = (decide (offset ≤ i) && decide (i < offset + width)) := by
  rw [maskOf, Nat.testBit_shiftLeft, Nat.testBit_two_pow_sub_one]
  by_cases h : offset ≤ i
  · rw [decide_eq_true h, Bool.true_and, Bool.true_and]
    congr 1
    apply propext
    omega
  · rw [decide_eq_false h, Bool.false_and, Bool.false_and]

end SemantiST.Lib
