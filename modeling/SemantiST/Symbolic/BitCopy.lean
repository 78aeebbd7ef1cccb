import SemantiST.Lib.Bits
import SemantiST.Lib.Loop
import Mathlib.Logic.Relation

/-!
# The bit copy of the memory models

`__SEMANTIST_BITCPY` of `memory_stubs.c` copies bits between two buffers, as many at a time as fit
into one byte of each.  All positions are kept in 16 bits.
-/

namespace SemantiST.Symbolic

open Lib

/-! ## The model -/

/-- The variables of the loop. -/
structure BitCopy where
  dest : List UInt8
  destStartBit : UInt16
  sourceStartBit : UInt16
  bitCount : UInt16
deriving DecidableEq

namespace BitCopy

def srcByte (c : BitCopy) : UInt16 := c.sourceStartBit / 8

def srcBit (c : BitCopy) : UInt16 := c.sourceStartBit % 8

def dstByte (c : BitCopy) : UInt16 := c.destStartBit / 8

def dstBit (c : BitCopy) : UInt16 := c.destStartBit % 8

/-- How many bits fit into the two bytes. -/
def room (c : BitCopy) : UInt16 := 8 - (if c.srcBit > c.dstBit then c.srcBit else c.dstBit)

def bits (c : BitCopy) : UInt16 := if c.room > c.bitCount then c.bitCount else c.room

/-- `(uint8_t)(((1u << bits) - 1u) << bit)` -/
def mask (bits bit : UInt16) : UInt8 := (((1 <<< bits.toUInt32) - 1) <<< bit.toUInt32).toUInt8

def value (c : BitCopy) (source : List UInt8) : UInt8 :=
  (source.getD c.srcByte.toNat 0 &&& mask c.bits c.srcBit) >>> c.srcBit.toUInt8

/-- The byte that is stored at `dstByte`. -/
def merged (c : BitCopy) (source : List UInt8) : UInt8 :=
  (c.dest.getD c.dstByte.toNat 0 &&& ~~~mask c.bits c.dstBit) ||| (c.value source <<< c.dstBit.toUInt8)

/-- One round of the loop. -/
def step (source : List UInt8) (c : BitCopy) : Option BitCopy :=
  if c.bitCount > 0 then
    some
      { dest := c.dest.set c.dstByte.toNat (c.merged source)
        destStartBit := c.destStartBit + c.bits
        sourceStartBit := c.sourceStartBit + c.bits
        bitCount := c.bitCount - c.bits }
  else none

end BitCopy

/-- `__SEMANTIST_BITCPY`; a null pointer is `none`.  The result and the destination afterwards. -/
def bitcpy (dest : Option (List UInt8)) (destStartBit : UInt16) (source : Option (List UInt8))
    (sourceStartBit bitCount : UInt16) : Bool × Option (List UInt8) :=
  match dest, source with
  | some dest, some source =>
    (true, some (loop (BitCopy.step source) bitCount.toNat
      ⟨dest, destStartBit, sourceStartBit, bitCount⟩).dest)
  | dest, _ => (false, dest)

/-! ## One round -/

namespace BitCopy

variable {c c' : BitCopy} {source : List UInt8}

@[simp]
theorem toNat_srcBit : c.srcBit.toNat = c.sourceStartBit.toNat % 8 := rfl

@[simp]
theorem toNat_dstBit : c.dstBit.toNat = c.destStartBit.toNat % 8 := rfl

@[simp]
theorem toNat_srcByte : c.srcByte.toNat = c.sourceStartBit.toNat / 8 := rfl

@[simp]
theorem toNat_dstByte : c.dstByte.toNat = c.destStartBit.toNat / 8 := rfl

theorem toNat_room :
    c.room.toNat = 8 - max (c.sourceStartBit.toNat % 8) (c.destStartBit.toNat % 8) := by
  have hsrc : c.srcBit.toNat ≤ (8 : UInt16).toNat := (Nat.mod_lt _ (by decide)).le
  have hdst : c.dstBit.toNat ≤ (8 : UInt16).toNat := (Nat.mod_lt _ (by decide)).le
  unfold room
  split
  · rename_i h
    have h := UInt16.lt_iff_toNat_lt.1 h
    rw [toNat_srcBit, toNat_dstBit] at h
    rw [UInt16.toNat_sub_of_le _ _ (UInt16.le_iff_toNat_le.2 hsrc), toNat_srcBit, Nat.max_eq_left (by omega)]
    rfl
  · rename_i h
    have h := mt UInt16.lt_iff_toNat_lt.2 h
    rw [toNat_srcBit, toNat_dstBit] at h
    rw [UInt16.toNat_sub_of_le _ _ (UInt16.le_iff_toNat_le.2 hdst), toNat_dstBit, Nat.max_eq_right (by omega)]
    rfl

/-- The bits of a round stay within one byte of each buffer. -/
theorem toNat_bits : c.bits.toNat =
    min (8 - max (c.sourceStartBit.toNat % 8) (c.destStartBit.toNat % 8)) c.bitCount.toNat := by
  rw [← toNat_room]
  unfold bits
  split
  · rename_i h
    have h := UInt16.lt_iff_toNat_lt.1 h
    omega
  · rename_i h
    have h := mt UInt16.lt_iff_toNat_lt.2 h
    omega

theorem toNat_mask {bits bit : UInt16} (hbits : bits.toNat + bit.toNat ≤ 8) :
    (mask bits bit).toNat = maskOf bits.toNat bit.toNat := by
  have hall : ∀ n : Fin 9, ∀ k : Fin 9, n.val + k.val ≤ 8 →
      (mask (UInt16.ofNat n) (UInt16.ofNat k)).toNat = maskOf n k := by decide +kernel
  have h := hall ⟨bits.toNat, by omega⟩ ⟨bit.toNat, by omega⟩ hbits
  rwa [UInt16.ofNat_toNat, UInt16.ofNat_toNat] at h

theorem toNat_toUInt8_mod {bit : UInt16} (h : bit.toNat < 8) : bit.toUInt8.toNat % 8 = bit.toNat := by
  rw [UInt16.toNat_toUInt8]
  omega

/-- The stored byte has the bits of the source byte at the places that are copied. -/
theorem testBit_merged {k : ℕ} (hk : k < 8) :
    (c.merged source).toNat.testBit k =
      if c.dstBit.toNat ≤ k ∧ k < c.dstBit.toNat + c.bits.toNat then
        (source.getD c.srcByte.toNat 0).toNat.testBit (c.srcBit.toNat + (k - c.dstBit.toNat))
      else (c.dest.getD c.dstByte.toNat 0).toNat.testBit k := by
  have hbits := @toNat_bits c
  have hmask : (mask c.bits c.srcBit).toNat = maskOf c.bits.toNat c.srcBit.toNat :=
    toNat_mask (by rw [toNat_srcBit]; omega)
  have hmask' : (mask c.bits c.dstBit).toNat = maskOf c.bits.toNat c.dstBit.toNat :=
    toNat_mask (by rw [toNat_dstBit]; omega)
  have hsrc : c.srcBit.toNat < 8 := Nat.mod_lt _ (by decide)
  have hdst : c.dstBit.toNat < 8 := Nat.mod_lt _ (by decide)
  have hnot : (~~~mask c.bits c.dstBit).toNat.testBit k =
      !(decide (c.dstBit.toNat ≤ k) && decide (k < c.dstBit.toNat + c.bits.toNat)) := by
    rw [← testBit_maskOf, ← hmask', UInt8.toNat_not, Nat.sub_sub, Nat.add_comm,
      Nat.testBit_two_pow_sub_succ (UInt8.toNat_lt _), decide_eq_true hk, Bool.true_and]
  simp only [merged, value, UInt8.toNat_or, UInt8.toNat_and, UInt8.toNat_shiftLeft, UInt8.toNat_shiftRight,
    Nat.testBit_or, Nat.testBit_and, Nat.testBit_mod_two_pow, Nat.testBit_shiftLeft, Nat.testBit_shiftRight,
    hmask, hnot, toNat_toUInt8_mod hsrc, toNat_toUInt8_mod hdst, testBit_maskOf]
  rw [decide_eq_true hk, Bool.true_and]
  by_cases hin : c.dstBit.toNat ≤ k ∧ k < c.dstBit.toNat + c.bits.toNat
  · rw [if_pos hin, decide_eq_true hin.1, decide_eq_true hin.2, decide_eq_true (by omega),
      decide_eq_true (by omega), Bool.and_true, Bool.and_true, Bool.not_true, Bool.and_false,
      Bool.false_or, Bool.true_and]
  · rw [if_neg hin, ← Bool.decide_and, decide_eq_false hin, Bool.not_false, Bool.and_true]
    by_cases hlow : c.dstBit.toNat ≤ k
    · have hout : ¬ c.srcBit.toNat + (k - c.dstBit.toNat) < c.srcBit.toNat + c.bits.toNat := by omega
      rw [decide_eq_false hout, Bool.and_false, Bool.and_false, Bool.and_false, Bool.or_false]
    · rw [decide_eq_false hlow, Bool.false_and, Bool.or_false]

/-- **A round copies `bits` bits** from the source position to the destination position. -/
theorem bitAt_round (h : c.dstByte.toNat < c.dest.length) (p : ℕ) :
    bitAt (c.dest.set c.dstByte.toNat (c.merged source)) p =
      if c.destStartBit.toNat ≤ p ∧ p < c.destStartBit.toNat + c.bits.toNat then
        bitAt source (c.sourceStartBit.toNat + (p - c.destStartBit.toNat))
      else bitAt c.dest p := by
  have hbits := @toNat_bits c
  rw [bitAt_set h, testBit_merged (Nat.mod_lt _ (by decide)), toNat_dstByte, toNat_dstBit]
  by_cases hbyte : p / 8 = c.destStartBit.toNat / 8
  · rw [if_pos hbyte]
    by_cases hin : c.destStartBit.toNat ≤ p ∧ p < c.destStartBit.toNat + c.bits.toNat
    · rw [if_pos hin, if_pos (by omega), bitAt, toNat_srcByte, toNat_srcBit]
      congr 1
      · congr 2
        omega
      · omega
    · rw [if_neg hin, if_neg (by omega), bitAt, hbyte]
  · rw [if_neg hbyte, if_neg (by omega)]

end BitCopy

/-! ## The run -/

/-- The place of the `i`-th bit after `start`, as 16 bits count it. -/
def place (start : UInt16) (i : ℕ) : ℕ := (start.toNat + i) % 65536

/-- What holds after `k` bits. -/
structure Copied (dest source : List UInt8) (destStart sourceStart bitCount : UInt16) (k : ℕ)
    (c : BitCopy) : Prop where
  destAt : c.destStartBit.toNat = place destStart k
  sourceAt : c.sourceStartBit.toNat = place sourceStart k
  left : c.bitCount.toNat + k = bitCount.toNat
  length : c.dest.length = dest.length
  copied : ∀ i < k, bitAt c.dest (place destStart i) = bitAt source (place sourceStart i)
  kept : ∀ p, (∀ i < k, p ≠ place destStart i) → bitAt c.dest p = bitAt dest p

variable {dest source : List UInt8} {destStart sourceStart bitCount : UInt16} {k : ℕ} {c c' : BitCopy}

theorem copied_start : Copied dest source destStart sourceStart bitCount 0
    ⟨dest, destStart, sourceStart, bitCount⟩ where
  destAt := by rw [place, Nat.add_zero, Nat.mod_eq_of_lt (UInt16.toNat_lt _)]
  sourceAt := by rw [place, Nat.add_zero, Nat.mod_eq_of_lt (UInt16.toNat_lt _)]
  left := rfl
  length := rfl
  copied := by
    intro i hi
    omega
  kept _ _ := rfl

/-- Within one byte the places do not wrap. -/
theorem place_add {start : UInt16} {j : ℕ} (h : place start k % 8 + j < 8) :
    place start (k + j) = place start k + j := by
  unfold place at *
  omega

theorem place_inj {start : UInt16} {i j : ℕ} (hi : i < 65536) (hj : j < 65536)
    (h : place start i = place start j) : i = j := by
  unfold place at h
  omega

/-- The destination byte of a round is in the buffer. -/
theorem Copied.dstByte_lt (h : Copied dest source destStart sourceStart bitCount k c)
    (hlong : destStart.toNat + bitCount.toNat ≤ 8 * dest.length) (hcount : 0 < c.bitCount.toNat) :
    c.dstByte.toNat < dest.length := by
  have hleft := h.left
  rw [BitCopy.toNat_dstByte, h.destAt, place]
  omega

/-- **What holds after `k` bits holds after the next round**, of the bits then copied. -/
theorem Copied.step (h : Copied dest source destStart sourceStart bitCount k c)
    (hlong : destStart.toNat + bitCount.toNat ≤ 8 * dest.length) (hstep : c.step source = some c') :
    ∃ k', Copied dest source destStart sourceStart bitCount k' c' := by
  unfold BitCopy.step at hstep
  by_cases hpos : c.bitCount > 0
  · rw [if_pos hpos] at hstep
    cases hstep
    have hpos : 0 < c.bitCount.toNat := UInt16.lt_iff_toNat_lt.1 hpos
    have hbyte := h.dstByte_lt hlong hpos
    rw [← h.length] at hbyte
    have hbits := @BitCopy.toNat_bits c
    have hleft := h.left
    have hlimit := bitCount.toNat_lt
    have hdest := h.destAt
    have hsource := h.sourceAt
    -- the places of this round follow each other in one byte
    have hplaces : ∀ j < c.bits.toNat, place destStart (k + j) = place destStart k + j ∧
        place sourceStart (k + j) = place sourceStart k + j := by
      intro j hj
      exact ⟨place_add (by omega), place_add (by omega)⟩
    refine ⟨k + c.bits.toNat, ⟨?_, ?_, ?_, ?_, ?_, ?_⟩⟩
    · show (c.destStartBit + c.bits).toNat = _
      rw [UInt16.toNat_add, hdest, place, place]
      omega
    · show (c.sourceStartBit + c.bits).toNat = _
      rw [UInt16.toNat_add, hsource, place, place]
      omega
    · show (c.bitCount - c.bits).toNat + _ = _
      rw [UInt16.toNat_sub_of_le _ _ (UInt16.le_iff_toNat_le.2 (by omega))]
      omega
    · rw [List.length_set, h.length]
    · intro i hi
      rw [BitCopy.bitAt_round hbyte, hdest, hsource]
      by_cases hold : i < k
      · rw [if_neg, h.copied i hold]
        intro hin
        have hnew := (hplaces (place destStart i - place destStart k) (by omega)).1
        have := place_inj (by omega) (by omega) (hnew.trans (Nat.add_sub_cancel' hin.1))
        omega
      · obtain ⟨hd, hs⟩ := hplaces (i - k) (by omega)
        rw [Nat.add_sub_cancel' (by omega)] at hd hs
        rw [hd, hs, if_pos (by omega)]
        congr 1
        omega
    · intro p hp
      rw [BitCopy.bitAt_round hbyte, if_neg]
      · apply h.kept
        intro i hi
        exact hp i (by omega)
      · intro hin
        apply hp (k + (p - c.destStartBit.toNat)) (by omega)
        rw [(hplaces _ (by omega)).1]
        omega
  · rw [if_neg hpos] at hstep
    cases hstep

theorem bitCount_lt_of_step (hstep : c.step source = some c') : c'.bitCount.toNat < c.bitCount.toNat := by
  unfold BitCopy.step at hstep
  by_cases hpos : c.bitCount > 0
  · rw [if_pos hpos] at hstep
    cases hstep
    have hpos : 0 < c.bitCount.toNat := UInt16.lt_iff_toNat_lt.1 hpos
    have hbits := @BitCopy.toNat_bits c
    show (c.bitCount - c.bits).toNat < _
    rw [UInt16.toNat_sub_of_le _ _ (UInt16.le_iff_toNat_le.2 (by omega))]
    omega
  · rw [if_neg hpos] at hstep
    cases hstep

theorem bitCount_of_step_eq_none (hstep : c.step source = none) : c.bitCount.toNat = 0 := by
  unfold BitCopy.step at hstep
  by_cases hpos : c.bitCount > 0
  · rw [if_pos hpos] at hstep
    cases hstep
  · exact Nat.eq_zero_of_not_pos fun h => hpos (UInt16.lt_iff_toNat_lt.2 h)

/-- **The whole copy**: it ends, with every bit at its place modulo `2^16`. -/
theorem copied_bitcpy (hlong : destStart.toNat + bitCount.toNat ≤ 8 * dest.length) :
    ∃ last, Loop (BitCopy.step source) ⟨dest, destStart, sourceStart, bitCount⟩ last ∧
      bitcpy (some dest) destStart (some source) sourceStart bitCount = (true, some last.dest) ∧
      Copied dest source destStart sourceStart bitCount bitCount.toNat last := by
  have hends := @loop_ends _ (BitCopy.step source) ⟨dest, destStart, sourceStart, bitCount⟩
    (fun c => c.bitCount.toNat) (fun _ _ => bitCount_lt_of_step) bitCount.toNat le_rfl
  refine ⟨_, hends, rfl, ?_⟩
  obtain ⟨k, hk⟩ := hends.invariant (P := fun c => ∃ k, Copied dest source destStart sourceStart bitCount k c)
    (fun c c' h hstep => h.elim fun k hk => hk.step hlong hstep) ⟨0, copied_start⟩
  have hleft := hk.left
  rw [bitCount_of_step_eq_none hends.step_eq_none, Nat.zero_add] at hleft
  rw [hleft] at hk
  exact hk

/-! ## Exactness -/

/-- `c` is at the head of a round of the copy that starts in `start`. -/
def Reached (source : List UInt8) (start c : BitCopy) : Prop :=
  Relation.ReflTransGen (fun c c' : BitCopy => c.step source = some c') start c

/-- Byte `index` holds some of the `count` bits from `start` on. -/
def InRange (start count : UInt16) (index : ℕ) : Prop :=
  start.toNat / 8 ≤ index ∧ 8 * index < start.toNat + count.toNat

/-- The copy of `bitCount` bits between two buffers ends, moves the bits, keeps all others and
touches only the bytes of the two ranges. -/
structure ExactCopy (dest source : List UInt8) (destStart sourceStart bitCount : UInt16) : Prop where
  ends : ∃ last, Loop (BitCopy.step source) ⟨dest, destStart, sourceStart, bitCount⟩ last ∧
    bitcpy (some dest) destStart (some source) sourceStart bitCount = (true, some last.dest) ∧
    last.dest.length = dest.length ∧
    (∀ i < bitCount.toNat, bitAt last.dest (destStart.toNat + i) = bitAt source (sourceStart.toNat + i)) ∧
    ∀ p, (∀ i < bitCount.toNat, p ≠ destStart.toNat + i) → bitAt last.dest p = bitAt dest p
  touches : ∀ c, Reached source ⟨dest, destStart, sourceStart, bitCount⟩ c → 0 < c.bitCount.toNat →
    InRange destStart bitCount c.dstByte.toNat ∧ c.dstByte.toNat < dest.length ∧
    InRange sourceStart bitCount c.srcByte.toNat ∧ c.srcByte.toNat < source.length

theorem copied_of_reached (hlong : destStart.toNat + bitCount.toNat ≤ 8 * dest.length)
    (h : Reached source ⟨dest, destStart, sourceStart, bitCount⟩ c) :
    ∃ k, Copied dest source destStart sourceStart bitCount k c := by
  induction h with
  | refl => exact ⟨0, copied_start⟩
  | tail _ hstep ih =>
    obtain ⟨k, hk⟩ := ih
    exact hk.step hlong hstep

theorem place_of_le {start : UInt16} {i : ℕ} (h : start.toNat + i < 65536) : place start i = start.toNat + i :=
  Nat.mod_eq_of_lt h

/-- **Below the end of the 16-bit range the copy is exact.** -/
theorem exactCopy_of_le (hdest : destStart.toNat + bitCount.toNat ≤ 65536)
    (hsource : sourceStart.toNat + bitCount.toNat ≤ 65536)
    (hlong : destStart.toNat + bitCount.toNat ≤ 8 * dest.length)
    (hlong' : sourceStart.toNat + bitCount.toNat ≤ 8 * source.length) :
    ExactCopy dest source destStart sourceStart bitCount where
  ends := by
    obtain ⟨last, hends, heq, hcopied⟩ := @copied_bitcpy dest source destStart sourceStart bitCount hlong
    refine ⟨last, hends, heq, hcopied.length, ?_, ?_⟩
    · intro i hi
      have h := hcopied.copied i hi
      rwa [place_of_le (by omega), place_of_le (by omega)] at h
    · intro p hp
      apply hcopied.kept
      intro i hi
      rw [place_of_le (by omega)]
      exact hp i hi
  touches := by
    intro c hc hcount
    obtain ⟨k, hk⟩ := copied_of_reached hlong hc
    have hleft := hk.left
    rw [BitCopy.toNat_dstByte, BitCopy.toNat_srcByte, hk.destAt, hk.sourceAt, place_of_le (by omega),
      place_of_le (by omega)]
    unfold InRange
    omega

/-- No bit above the 16-bit range is ever written, and none is read from there. -/
theorem le_of_exactCopy (h : ∀ dest source : List UInt8, destStart.toNat + bitCount.toNat ≤ 8 * dest.length →
    sourceStart.toNat + bitCount.toNat ≤ 8 * source.length → ExactCopy dest source destStart sourceStart bitCount) :
    destStart.toNat + bitCount.toNat ≤ 65536 ∧ sourceStart.toNat + bitCount.toNat ≤ 65536 := by
  have hd := destStart.toNat_lt
  have hs := sourceStart.toNat_lt
  have hn := bitCount.toNat_lt
  have hclear : ∀ p < 131072, bitAt (List.replicate 16384 0) p = false := by
    intro p hp
    rw [bitAt_replicate (by omega)]
    exact Nat.zero_testBit _
  have hset : ∀ n p, p < 8 * n → bitAt (List.replicate n 255) p = true := by
    intro n p hp
    rw [bitAt_replicate hp]
    have hall : ∀ k : Fin 8, (255 : UInt8).toNat.testBit k = true := by decide
    exact hall ⟨p % 8, Nat.mod_lt _ (by decide)⟩
  have hdest : destStart.toNat + bitCount.toNat ≤ 65536 := by
    by_contra hover
    have hexact := h (List.replicate 16384 0) (List.replicate 16384 255) (by rw [List.length_replicate]; omega)
      (by rw [List.length_replicate]; omega)
    obtain ⟨last, hends, -, -, hcopied, -⟩ := hexact.ends
    obtain ⟨last', hends', -, hwrapped⟩ := @copied_bitcpy (List.replicate 16384 0) (List.replicate 16384 255)
      destStart sourceStart bitCount (by rw [List.length_replicate]; omega)
    cases hends.unique hends'
    have hbit := hcopied (65536 - destStart.toNat) (by omega)
    rw [hset _ _ (by omega), hwrapped.kept, hclear _ (by omega)] at hbit
    · cases hbit
    · intro i _
      unfold place
      omega
  refine ⟨hdest, ?_⟩
  by_contra hover
  -- the lower half of the source is clear, the upper half is set
  have hexact := h (List.replicate 16384 0) (List.replicate 8192 0 ++ List.replicate 8192 255)
    (by rw [List.length_replicate]; omega)
    (by rw [List.length_append, List.length_replicate, List.length_replicate]; omega)
  obtain ⟨last, hends, -, -, hcopied, -⟩ := hexact.ends
  obtain ⟨last', hends', -, hwrapped⟩ := @copied_bitcpy (List.replicate 16384 0)
    (List.replicate 8192 0 ++ List.replicate 8192 255) destStart sourceStart bitCount
    (by rw [List.length_replicate]; omega)
  cases hends.unique hends'
  have hbit := hcopied (65536 - sourceStart.toNat) (by omega)
  rw [bitAt_append_right (by rw [List.length_replicate]; omega), List.length_replicate, hset _ _ (by omega)] at hbit
  have hread := hwrapped.copied (65536 - sourceStart.toNat) (by omega)
  have hzero : place sourceStart (65536 - sourceStart.toNat) = 0 := by
    unfold place
    omega
  rw [hzero, bitAt_append_left (by rw [List.length_replicate]; omega), bitAt_replicate (by omega),
    place_of_le (by omega), hbit] at hread
  exact absurd hread (by decide)

/-- **The bit copy is exact for all buffers that are long enough precisely where neither position
leaves 16 bits.** -/
theorem exactCopy_iff (destStart sourceStart bitCount : UInt16) :
    (∀ dest source : List UInt8, destStart.toNat + bitCount.toNat ≤ 8 * dest.length →
      sourceStart.toNat + bitCount.toNat ≤ 8 * source.length →
        ExactCopy dest source destStart sourceStart bitCount) ↔
    destStart.toNat + bitCount.toNat ≤ 65536 ∧ sourceStart.toNat + bitCount.toNat ≤ 65536 := by
  constructor
  · exact le_of_exactCopy
  · intro h dest source hlong hlong'
    exact exactCopy_of_le h.1 h.2 hlong hlong'

/-- Two bits copied to the last position of the 16-bit range: the second one is written to the
first byte of the destination. -/
theorem not_exactCopy_lastBit : ¬ ∀ (dest source : List UInt8) (destStart sourceStart bitCount : UInt16),
    destStart.toNat + bitCount.toNat ≤ 8 * dest.length → sourceStart.toNat + bitCount.toNat ≤ 8 * source.length →
      ExactCopy dest source destStart sourceStart bitCount := by
  intro h
  have hlong : (65535 : UInt16).toNat + (2 : UInt16).toNat ≤ 8 * (List.replicate 8193 (0 : UInt8)).length := by
    rw [List.length_replicate]
    decide
  obtain ⟨last, hends, -, -, -, hkept⟩ := (h (List.replicate 8193 0) [3] 65535 0 2 hlong (by decide)).ends
  obtain ⟨last', hends', -, hwrapped⟩ := @copied_bitcpy (List.replicate 8193 0) [3] 65535 0 2 hlong
  cases hends.unique hends'
  have hset : bitAt last.dest 0 = true := (hwrapped.copied 1 (by decide)).trans (by decide)
  have hclear := hkept 0 (by decide)
  rw [bitAt_replicate (by decide), hset] at hclear
  cases hclear

end SemantiST.Symbolic
