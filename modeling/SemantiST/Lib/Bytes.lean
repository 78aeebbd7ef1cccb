import Mathlib.Tactic.NormNum

/-!
# Bytes

Numbers as bytes in either byte order, and words that are stored in a buffer and loaded again.
-/

namespace SemantiST.Lib

/-! ## Numbers as bytes -/

/-- The `w` bytes of `n`, the least significant first. -/
def toBytes : ℕ → ℕ → List UInt8
  | 0, _ => []
  | w + 1, n => UInt8.ofNat (n % 256) :: toBytes w (n / 256)

/-- The number with these bytes, the least significant first. -/
def ofBytes : List UInt8 → ℕ
  | [] => 0
  | b :: bs => b.toNat + 256 * ofBytes bs

@[simp] theorem length_toBytes (w n : ℕ) : (toBytes w n).length = w := by
  induction w generalizing n with
  | zero => rfl
  | succ w ih => rw [toBytes, List.length_cons, ih]

theorem ofBytes_toBytes {w n : ℕ} (h : n < 256 ^ w) : ofBytes (toBytes w n) = n := by
  induction w generalizing n with
  | zero =>
    rw [toBytes, ofBytes]
    omega
  | succ w ih =>
    have hrest : n / 256 < 256 ^ w := by
      rw [pow_succ] at h
      omega
    have hbyte : (UInt8.ofNat (n % 256)).toNat = n % 256 := by
      rw [UInt8.toNat_ofNat']
      omega
    rw [toBytes, ofBytes, ih hrest, hbyte]
    omega

theorem toBytes_ofBytes (bytes : List UInt8) : toBytes bytes.length (ofBytes bytes) = bytes := by
  induction bytes with
  | nil => rfl
  | cons b bytes ih =>
    have hlt := b.toNat_lt
    have hmod : (b.toNat + 256 * ofBytes bytes) % 256 = b.toNat := by omega
    have hdiv : (b.toNat + 256 * ofBytes bytes) / 256 = ofBytes bytes := by omega
    rw [List.length_cons, toBytes, ofBytes, hmod, hdiv, ih, UInt8.ofNat_toNat]

theorem ofBytes_lt (bytes : List UInt8) : ofBytes bytes < 256 ^ bytes.length := by
  induction bytes with
  | nil => exact Nat.one_pos
  | cons b bytes ih =>
    have hlt := b.toNat_lt
    rw [List.length_cons, ofBytes, pow_succ]
    omega

inductive ByteOrder where
  | little | big

namespace ByteOrder

variable (order : ByteOrder)

/-- The `w` bytes of `n` in this order. -/
def encode (w n : ℕ) : List UInt8 :=
  match order with
  | little => toBytes w n
  | big => (toBytes w n).reverse

/-- The number with these bytes in this order. -/
def decode (bs : List UInt8) : ℕ :=
  match order with
  | little => ofBytes bs
  | big => ofBytes bs.reverse

@[simp] theorem length_encode (w n : ℕ) : (order.encode w n).length = w := by
  cases order with
  | little => exact length_toBytes w n
  | big => rw [encode, List.length_reverse, length_toBytes]

theorem decode_encode {w n : ℕ} (h : n < 256 ^ w) : order.decode (order.encode w n) = n := by
  cases order with
  | little => exact ofBytes_toBytes h
  | big => rw [encode, decode, List.reverse_reverse, ofBytes_toBytes h]

theorem encode_decode (bytes : List UInt8) : order.encode bytes.length (order.decode bytes) = bytes := by
  cases order with
  | little => exact toBytes_ofBytes bytes
  | big =>
    have h := toBytes_ofBytes bytes.reverse
    rw [List.length_reverse] at h
    rw [encode, decode, h, List.reverse_reverse]

theorem decode_lt (bytes : List UInt8) : order.decode bytes < 256 ^ bytes.length := by
  cases order with
  | little => exact ofBytes_lt bytes
  | big =>
    have h := ofBytes_lt bytes.reverse
    rwa [List.length_reverse] at h

theorem decode_replicate_zero (w : ℕ) : order.decode (List.replicate w 0) = 0 := by
  have hzeros : ofBytes (List.replicate w 0) = 0 := by
    induction w with
    | zero => rfl
    | succ w ih =>
      rw [List.replicate_succ, ofBytes, ih]
      rfl
  cases order with
  | little => exact hzeros
  | big => rw [decode, List.reverse_replicate, hzeros]

end ByteOrder

/-! ## Buffers -/

/-- The buffer with the bytes of `word` at `offset`. -/
def storeAt (bytes : List UInt8) (offset : ℕ) (word : List UInt8) : List UInt8 :=
  bytes.take offset ++ word ++ bytes.drop (offset + word.length)

/-- The `n` bytes of the buffer at `offset`, if it is long enough. -/
def sliceAt (bytes : List UInt8) (offset n : ℕ) : Option (List UInt8) :=
  if offset + n ≤ bytes.length then some ((bytes.drop offset).take n) else none

variable {bytes word : List UInt8} {offset : ℕ}

@[simp] theorem length_storeAt (h : offset + word.length ≤ bytes.length) :
    (storeAt bytes offset word).length = bytes.length := by
  rw [storeAt, List.length_append, List.length_append, List.length_take, List.length_drop]
  omega

/-- What is stored is loaded again. -/
theorem sliceAt_storeAt (h : offset + word.length ≤ bytes.length) :
    sliceAt (storeAt bytes offset word) offset word.length = some word := by
  have htake : (bytes.take offset).length = offset := by
    rw [List.length_take]
    omega
  rw [sliceAt, length_storeAt h, if_pos h, storeAt, List.append_assoc]
  rw [List.drop_append_of_le_length (by omega), List.drop_of_length_le (by omega), List.nil_append,
    List.take_append_of_le_length le_rfl, List.take_length]

/-- Storing leaves the other bytes of the buffer alone. -/
theorem sliceAt_storeAt_of_disjoint (h : offset + word.length ≤ bytes.length) {offset' n : ℕ}
    (hdisjoint : offset' + n ≤ offset ∨ offset + word.length ≤ offset') :
    sliceAt (storeAt bytes offset word) offset' n = sliceAt bytes offset' n := by
  unfold sliceAt
  rw [length_storeAt h]
  split
  · congr 1
    apply List.ext_getElem?
    intro i
    rw [List.getElem?_take, List.getElem?_take]
    split
    · rename_i hi
      rw [List.getElem?_drop, List.getElem?_drop, storeAt, List.append_assoc]
      rcases hdisjoint with hbefore | hafter
      · rw [List.getElem?_append_left (by rw [List.length_take]; omega), List.getElem?_take,
          if_pos (by omega)]
      · rw [List.getElem?_append_right (by rw [List.length_take]; omega), List.length_take,
          List.getElem?_append_right (by omega), List.getElem?_drop]
        congr 1
        omega
    · rfl
  · rfl

end SemantiST.Lib
