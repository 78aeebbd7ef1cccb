import SemantiST.Corpus.Frames
import SemantiST.Engine.ParseLemmas
import SemantiST.Lib.Bytes
import SemantiST.Lib.Utf8

/-!
# String fields

`fill_hex_or_text`, with which the harness fills the buffer of a string field from the value of a
record. It copies the bytes of the value, or those that it spells in hexadecimal digits; it knows
neither of terminators nor of wide elements.
-/

namespace SemantiST.Harness

open Lib

/-! ## The model -/

/-- `digit_value`, none for `-1`. -/
def digitValue (ch : UInt8) : Option ℕ :=
  if 0x30 ≤ ch.toNat ∧ ch.toNat ≤ 0x39 then some (ch.toNat - 0x30)
  else if 0x61 ≤ ch.toNat ∧ ch.toNat ≤ 0x66 then some (ch.toNat - 0x61 + 10)
  else if 0x41 ≤ ch.toNat ∧ ch.toNat ≤ 0x46 then some (ch.toNat - 0x41 + 10)
  else none

/-- The loop over the pairs of digits, for at most so many bytes. -/
def fillHex : ℕ → List UInt8 → List UInt8
  | room + 1, hi :: lo :: value =>
    match digitValue hi, digitValue lo with
    | some hi, some lo => UInt8.ofNat (hi * 16 + lo) :: fillHex room value
    | _, _ => []
  | _, _ => []

/-- The digits after the prefix `0x`. -/
def hexDigits : List UInt8 → Option (List UInt8)
  | zero :: x :: digits => if zero = 0x30 ∧ (x = 0x78 ∨ x = 0x58) then some digits else none
  | _ => none

/-- What is written over the zeros of the buffer. -/
def filled (dstLen : ℕ) (value : List UInt8) : List UInt8 :=
  match hexDigits value with
  | some digits => fillHex dstLen digits
  | none => value.take dstLen

/-- The buffer of `dst_len` bytes; the value is a string of C, so it ends before the first zero. -/
def fillHexOrText (dstLen : ℕ) (value : List UInt8) : List UInt8 :=
  let value := value.takeWhile (· ≠ 0)
  filled dstLen value ++ List.replicate (dstLen - (filled dstLen value).length) 0

/-- The buffer of a string field (`buffer_declaration`) once a value is decoded into it. -/
def stringBuffer (wide : Bool) (length : ℕ) (value : Text) : List UInt8 :=
  fillHexOrText ((if wide then 2 else 1) * (length + 1)) (utf8Bytes value)

/-! ## What the field is to hold -/

/-- The characters of a text and a terminator, as elements of the field. -/
def terminated (order : ByteOrder) (wide : Bool) (value : Text) : List UInt8 :=
  if wide then (value.flatMap utf16Units ++ [0]).flatMap (order.encode 2) else utf8Bytes value ++ [0]

/-- The buffer holds the text and its terminator. -/
def Stores (order : ByteOrder) (wide : Bool) (length : ℕ) (value : Text) : Prop :=
  terminated order wide value <+: stringBuffer wide length value

/-- The value up to the first NUL, which is all that C sees of it. -/
def visible (value : Text) : Text := value.takeWhile (· ≠ nul)

/-- Nothing but NULs is hidden behind the first NUL, what is visible of a narrow value does not look
like hexadecimal digits and has at most `length` bytes, and what is visible of a wide one is at most
one ASCII character, which has to be the low byte of its element. -/
def Decodable (order : ByteOrder) (wide : Bool) (length : ℕ) (value : Text) : Prop :=
  (∀ c ∈ value.dropWhile (· ≠ nul), c = nul) ∧
    if wide then visible value = [] ∨ ∃ c, visible value = [c] ∧ c.toNat < 0x80 ∧ order = .little
    else hexDigits (utf8Bytes (visible value)) = none ∧ (utf8Bytes value).length ≤ length

/-! ## The buffer -/

section Buffer

variable {room dstLen position : ℕ} {value digits out stored : List UInt8} {b : UInt8}

theorem length_fillHex (room : ℕ) (value : List UInt8) :
    (fillHex room value).length ≤ room ∧ 2 * (fillHex room value).length ≤ value.length := by
  induction room, value using fillHex.induct with
  | case1 room hi lo value hi' lo' hhi hlo ih =>
    rw [fillHex, hhi, hlo]
    simp only [List.length_cons]
    omega
  | case2 room hi lo value hnone =>
    rw [fillHex]
    split
    · rename_i hhi hlo
      exact absurd hlo (hnone _ _ hhi)
    · exact ⟨Nat.zero_le _, Nat.zero_le _⟩
  | case3 room value hshort =>
    rw [fillHex]
    · exact ⟨Nat.zero_le _, Nat.zero_le _⟩
    · exact hshort

theorem length_filled_le (dstLen : ℕ) (value : List UInt8) : (filled dstLen value).length ≤ dstLen := by
  unfold filled
  split
  · exact (length_fillHex _ _).1
  · exact List.length_take_le _ _

theorem hexDigits_eq_some (h : hexDigits value = some digits) : value.length = digits.length + 2 := by
  unfold hexDigits at h
  split at h
  · split at h
    · rw [← Option.some.inj h]
      rfl
    · cases h
  · cases h

/-- Behind what is written there are zeros. -/
theorem lt_of_prefix_filled (h : stored <+: out ++ List.replicate room 0)
    (hb : stored[position]? = some b) (hne : b ≠ 0) : position < out.length := by
  by_contra hlt
  obtain ⟨rest, hrest⟩ := h
  have hbuffer : (out ++ List.replicate room 0)[position]? = some b := by
    rw [← hrest, List.getElem?_append_left (List.getElem?_eq_some_iff.1 hb).1, hb]
  rw [List.getElem?_append_right (Nat.not_lt.1 hlt)] at hbuffer
  exact hne (List.eq_of_mem_replicate (List.mem_of_getElem? hbuffer))

/-- What does not end with a zero has been written. -/
theorem length_le_of_prefix_filled (h : stored <+: out ++ List.replicate room 0) (hne : stored ≠ [])
    (hlast : stored.getLast hne ≠ 0) : stored.length ≤ out.length := by
  have hpos := List.length_pos_iff.2 hne
  have hat : stored[stored.length - 1]? = some (stored.getLast hne) := by
    rw [← List.getLast?_eq_getElem?, List.getLast?_eq_some_getLast hne]
  have hlt := lt_of_prefix_filled h hat hlast
  omega

/-- What is written has no zeros, so a zero stands behind it. -/
theorem le_of_prefix_filled (h : stored <+: out ++ List.replicate room 0) (hout : 0 ∉ out)
    (hb : stored[position]? = some 0) : out.length ≤ position := by
  by_contra hlt
  obtain ⟨rest, hrest⟩ := h
  have hbuffer : (out ++ List.replicate room 0)[position]? = some 0 := by
    rw [← hrest, List.getElem?_append_left (List.getElem?_eq_some_iff.1 hb).1, hb]
  rw [List.getElem?_append_left (Nat.not_le.1 hlt)] at hbuffer
  exact hout (List.mem_of_getElem? hbuffer)

end Buffer

section Visible

variable {value : Text}

theorem visible_append_hidden (value : Text) : visible value ++ value.dropWhile (· ≠ nul) = value :=
  List.takeWhile_append_dropWhile

theorem nul_not_mem_visible (value : Text) : nul ∉ visible value := fun h => by
  have hne := List.mem_takeWhile_imp h
  simp at hne

/-- What C sees of a value are the bytes before the first NUL. -/
theorem takeWhile_utf8Bytes (value : Text) :
    (utf8Bytes value).takeWhile (· ≠ 0) = utf8Bytes (visible value) := by
  induction value with
  | nil => rfl
  | cons c value ih =>
    unfold visible
    by_cases hc : c = nul
    · rw [hc]
      rfl
    · rw [List.takeWhile_cons_of_pos (by simpa using hc), utf8Bytes_cons, utf8Bytes_cons,
        List.takeWhile_append_of_pos fun b hb => by
          simpa using ne_zero_of_mem_utf8EncodeChar hc hb, ih]
      rfl

theorem stringBuffer_eq (wide : Bool) (length : ℕ) (value : Text) : stringBuffer wide length value =
    filled ((if wide then 2 else 1) * (length + 1)) (utf8Bytes (visible value)) ++
      List.replicate ((if wide then 2 else 1) * (length + 1) -
        (filled ((if wide then 2 else 1) * (length + 1)) (utf8Bytes (visible value))).length) 0 := by
  unfold stringBuffer fillHexOrText
  rw [takeWhile_utf8Bytes]

/-- A text of NULs alone is one of zeros alone. -/
theorem utf8Bytes_of_forall_nul (h : ∀ c ∈ value, c = nul) :
    utf8Bytes value = List.replicate value.length 0 := by
  induction value with
  | nil => rfl
  | cons c value ih =>
    obtain ⟨rfl, htail⟩ := List.forall_mem_cons.1 h
    rw [List.length_cons, List.replicate_succ, utf8Bytes_cons, ih htail]
    rfl

theorem forall_nul_of_utf8Bytes (h : ∀ b ∈ utf8Bytes value, b = 0) : ∀ c ∈ value, c = nul := by
  intro c hc
  by_contra hne
  have hpos : 0 < (String.utf8EncodeChar c).length := by
    rw [String.length_utf8EncodeChar]
    exact c.utf8Size_pos
  obtain ⟨b, hb⟩ := List.exists_mem_of_length_pos hpos
  exact ne_zero_of_mem_utf8EncodeChar hne hb (h b (List.mem_flatMap.2 ⟨c, hc, hb⟩))

end Visible

/-! ## Storing -/

section Stored

variable {order : ByteOrder} {wide : Bool} {dstLen room : ℕ} {value : Text} {out : List UInt8}

theorem filled_of_hexDigits_none {bytes : List UInt8} (h : hexDigits bytes = none) :
    filled dstLen bytes = bytes.take dstLen := by
  unfold filled
  rw [h]

/-- Digits stand for less than half of the bytes that spell them. -/
theorem length_filled_of_hexDigits {bytes digits : List UInt8} (h : hexDigits bytes = some digits)
    (dstLen : ℕ) : 2 * (filled dstLen bytes).length + 2 ≤ bytes.length := by
  have hlength := hexDigits_eq_some h
  have hfill := (length_fillHex dstLen digits).2
  unfold filled
  rw [h]
  dsimp only
  omega

/-- What is behind the bytes written is zero, the terminator included. -/
theorem forall_zero_of_prefix {stored behind : List UInt8}
    (h : stored ++ behind <+: out ++ List.replicate room 0) (hlength : out.length ≤ stored.length) :
    ∀ b ∈ behind, b = 0 := by
  intro b hb
  obtain ⟨i, hi⟩ := List.getElem?_of_mem hb
  by_contra hne
  have hat : (stored ++ behind)[stored.length + i]? = some b := by
    rw [List.getElem?_append_right (Nat.le_add_right _ _), Nat.add_sub_cancel_left, hi]
  have hlt := lt_of_prefix_filled h hat hne
  omega

/-- Zeros behind what is written are a prefix of the zeros of the buffer. -/
theorem append_replicate_prefix {count : ℕ} (h : count ≤ room) (b : UInt8) :
    out ++ List.replicate count b <+: out ++ List.replicate room b := by
  rw [List.prefix_append_right_inj, List.prefix_replicate_iff, List.length_replicate]
  exact ⟨h, rfl⟩

/-- **A narrow text that is accepted is stored when it is decodable.** -/
theorem stores_narrow_iff (order : ByteOrder) (length : ℕ) (value : Text) :
    Stores order false length value ↔ Decodable order false length value := by
  have hsplit : utf8Bytes value =
      utf8Bytes (visible value) ++ utf8Bytes (value.dropWhile (· ≠ nul)) := by
    rw [← utf8Bytes_append, visible_append_hidden]
  have hbytes : (utf8Bytes value).length =
      (utf8Bytes (visible value)).length + (utf8Bytes (value.dropWhile (· ≠ nul))).length := by
    rw [hsplit, List.length_append]
  unfold Stores Decodable terminated
  rw [stringBuffer_eq]
  simp only [Bool.false_eq_true, if_false, one_mul]
  constructor
  · intro hstored
    have hfit : (utf8Bytes value).length ≤ length := by
      have hle := hstored.length_le
      have hfilled := length_filled_le (length + 1) (utf8Bytes (visible value))
      simp only [List.length_append, List.length_replicate, List.length_singleton] at hle
      omega
    rw [hsplit, List.append_assoc] at hstored
    have hhex : hexDigits (utf8Bytes (visible value)) = none := by
      by_contra hhex
      obtain ⟨digits, hdigits⟩ := Option.ne_none_iff_exists'.1 hhex
      have hlength := length_filled_of_hexDigits hdigits (length + 1)
      have hne : utf8Bytes (visible value) ≠ [] := by
        intro hnil
        rw [hnil, List.length_nil] at hlength
        omega
      have hzero := zero_not_mem_utf8Bytes (nul_not_mem_visible value)
      have hle := length_le_of_prefix_filled ((List.prefix_append _ _).trans hstored) hne
        fun heq => hzero (heq ▸ List.getLast_mem hne)
      omega
    refine ⟨?_, hhex, hfit⟩
    rw [filled_of_hexDigits_none hhex] at hstored
    have hall := forall_zero_of_prefix hstored (List.length_take_le' _ _)
    exact forall_nul_of_utf8Bytes fun b hb => hall b (List.mem_append_left _ hb)
  · rintro ⟨hhidden, hhex, hfit⟩
    have hzeros := utf8Bytes_of_forall_nul hhidden
    rw [hzeros, List.length_replicate] at hbytes
    rw [filled_of_hexDigits_none hhex, List.take_of_length_le (by omega), hsplit, hzeros,
      List.append_assoc, ← List.replicate_succ']
    exact append_replicate_prefix (by omega) 0

end Stored

/-! ## Wide elements -/

section Wide

variable {order : ByteOrder} {value text text' : Text} {units behind : List ℕ} {u : ℕ} {c : Char}

/-- The elements of a buffer of code units. -/
def elements (order : ByteOrder) (units : List ℕ) : List UInt8 := units.flatMap (order.encode 2)

theorem elements_append : elements order (units ++ behind) = elements order units ++ elements order behind :=
  List.flatMap_append

theorem elements_cons : elements order (u :: units) = order.encode 2 u ++ elements order units := rfl

theorem length_elements (order : ByteOrder) (units : List ℕ) :
    (elements order units).length = 2 * units.length := by
  induction units with
  | nil => rfl
  | cons u units ih =>
    rw [elements_cons, List.length_append, ByteOrder.length_encode, ih, List.length_cons]
    omega

/-- The low byte of an element, then the high one, in little endian. -/
theorem encode_two (order : ByteOrder) (u : ℕ) : order.encode 2 u =
    match order with
    | .little => [UInt8.ofNat (u % 256), UInt8.ofNat (u / 256 % 256)]
    | .big => [UInt8.ofNat (u / 256 % 256), UInt8.ofNat (u % 256)] := by
  cases order <;> rfl

theorem eq_zero_of_forall_zero (order : ByteOrder) (hu : u < 0x10000)
    (h : ∀ b ∈ order.encode 2 u, b = 0) : u = 0 := by
  have hdecode := ByteOrder.decode_encode order (w := 2) (n := u) (by omega)
  have hzero : order.encode 2 u = List.replicate 2 0 :=
    List.eq_replicate_iff.2 ⟨ByteOrder.length_encode order 2 u, h⟩
  rw [hzero] at hdecode
  rw [← hdecode]
  cases order <;> rfl

theorem toNat_lt (c : Char) : c.toNat < 0x110000 := by
  have hval : c.val.toNat = c.toNat := rfl
  have hvalid := c.valid
  unfold UInt32.isValidChar Nat.isValidChar at hvalid
  omega

theorem mem_utf16Units (h : u ∈ utf16Units c) : u < 0x10000 ∧ (u = 0 → c = nul) := by
  have hmax := toNat_lt c
  unfold utf16Units at h
  split at h
  · rw [List.mem_singleton] at h
    subst h
    exact ⟨by assumption, fun hzero => Char.toNat_inj.1 hzero⟩
  · simp only [List.mem_cons, List.not_mem_nil, or_false] at h
    omega

theorem length_utf16Units_pos (c : Char) : 0 < (utf16Units c).length := by
  unfold utf16Units
  split <;> exact Nat.succ_pos _

theorem length_flatMap_utf16Units (text : Text) : (text.flatMap utf16Units).length = utf16Length text := by
  rw [List.length_flatMap, utf16Length]
  congr 1
  apply List.map_congr_left
  intro c _
  unfold utf16Units
  split <;> rfl

theorem forall_nul_of_elements (h : ∀ b ∈ elements order (text.flatMap utf16Units), b = 0) :
    ∀ c ∈ text, c = nul := by
  intro c hc
  obtain ⟨u, hu⟩ := List.exists_mem_of_length_pos (length_utf16Units_pos c)
  have hmem : u ∈ text.flatMap utf16Units := List.mem_flatMap.2 ⟨c, hc, hu⟩
  apply (mem_utf16Units hu).2
  apply eq_zero_of_forall_zero order (mem_utf16Units hu).1
  intro b hb
  exact h b (List.mem_flatMap.2 ⟨u, hmem, hb⟩)

theorem units_of_forall_nul (h : ∀ c ∈ text, c = nul) :
    text.flatMap utf16Units = List.replicate text.length 0 := by
  induction text with
  | nil => rfl
  | cons c text ih =>
    obtain ⟨rfl, htail⟩ := List.forall_mem_cons.1 h
    rw [List.flatMap_cons, ih htail]
    rfl

theorem elements_replicate (order : ByteOrder) (count : ℕ) :
    elements order (List.replicate count 0) = List.replicate (2 * count) 0 := by
  rw [List.eq_replicate_iff]
  refine ⟨by rw [length_elements, List.length_replicate], fun b hb => ?_⟩
  obtain ⟨u, hu, hb⟩ := List.mem_flatMap.1 hb
  rw [List.eq_of_mem_replicate hu] at hb
  cases order <;> simpa [ByteOrder.encode, toBytes] using hb

/-- Each character has at most three bytes for each of its elements. -/
theorem length_utf8Bytes_le (text : Text) :
    (utf8Bytes text).length ≤ 3 * (text.flatMap utf16Units).length := by
  induction text with
  | nil => exact Nat.le_refl _
  | cons c text ih =>
    have hc := (length_utf8EncodeChar_units c).1
    rw [utf8Bytes_cons, List.flatMap_cons, List.length_append, List.length_append]
    omega

/-- Without ASCII characters there are at least two. -/
theorem le_length_utf8Bytes (h : ∀ c ∈ text, 0x80 ≤ c.toNat) :
    2 * (text.flatMap utf16Units).length ≤ (utf8Bytes text).length := by
  induction text with
  | nil => exact Nat.le_refl _
  | cons c text ih =>
    obtain ⟨hascii, htail⟩ := List.forall_mem_cons.1 h
    have hc := (length_utf8EncodeChar_units c).2.1 hascii
    have htail := ih htail
    rw [utf8Bytes_cons, List.flatMap_cons, List.length_append, List.length_append]
    omega

/-- The two bytes of an element. -/
theorem elements_getElem? {i : ℕ} (hi : i < 2) :
    (elements order (units ++ u :: behind))[2 * units.length + i]? = (order.encode 2 u)[i]? := by
  rw [elements_append, elements_cons, List.getElem?_append_right (by rw [length_elements]; omega),
    length_elements, Nat.add_sub_cancel_left,
    List.getElem?_append_left (by rw [ByteOrder.length_encode]; exact hi)]

/-- The first element of a character that is not ASCII differs from its first two bytes, unless it has
three of them. -/
theorem three_bytes_of_prefix {bytes : List UInt8} (hc : 0x80 ≤ c.toNat)
    (h : elements order (utf16Units c ++ units) <+: String.utf8EncodeChar c ++ bytes) :
    (String.utf8EncodeChar c).length = 2 * (utf16Units c).length + 1 := by
  have hthree := (length_utf8EncodeChar_units c).2.2
  obtain ⟨first, second, rest, hencode, hbytes⟩ := utf8EncodeChar_multibyte hc
  have hleading := hbytes.leading
  have hcontinued := hbytes.continued
  have hfirst := first.toNat_lt
  by_cases hbmp : c.toNat < 0x10000
  · have hunits : utf16Units c = [c.toNat] := if_pos hbmp
    by_cases hlong : 0x800 ≤ c.toNat
    · rw [hthree hlong hbmp, hunits]
      rfl
    · exfalso
      rw [hunits, hencode, List.singleton_append, elements_cons, encode_two] at h
      cases order with
      | little =>
        have hsecond : UInt8.ofNat (c.toNat / 256 % 256) = second := by
          simp only [List.cons_append, List.cons_prefix_cons] at h
          exact h.2.1
        rw [← hsecond, UInt8.toNat_ofNat'] at hcontinued
        omega
      | big =>
        have hfirst : UInt8.ofNat (c.toNat / 256 % 256) = first := by
          simp only [List.cons_append, List.cons_prefix_cons] at h
          exact h.1
        rw [← hfirst, UInt8.toNat_ofNat'] at hleading
        omega
  · exfalso
    have hunits : utf16Units c =
        [0xd800 + (c.toNat - 0x10000) / 0x400, 0xdc00 + (c.toNat - 0x10000) % 0x400] := if_neg hbmp
    have hhigh : (0xd800 + (c.toNat - 0x10000) / 0x400) < 0xdc00 := by
      have hmax := toNat_lt c
      omega
    have hsupplementary := hbytes.supplementary (Nat.not_lt.1 hbmp)
    rw [hunits, hencode, List.cons_append, elements_cons, encode_two] at h
    cases order with
    | little =>
      have hsecond : UInt8.ofNat ((0xd800 + (c.toNat - 0x10000) / 0x400) / 256 % 256) = second := by
        simp only [List.cons_append, List.cons_prefix_cons] at h
        exact h.2.1
      rw [← hsecond, UInt8.toNat_ofNat'] at hcontinued
      omega
    | big =>
      have hfirst : UInt8.ofNat ((0xd800 + (c.toNat - 0x10000) / 0x400) / 256 % 256) = first := by
        simp only [List.cons_append, List.cons_prefix_cons] at h
        exact h.1
      rw [← hfirst, UInt8.toNat_ofNat'] at hsupplementary
      omega

/-- What stands in the place of the terminator is zero. -/
theorem exists_units_hidden (value : Text) :
    ∃ rest, (value.dropWhile (· ≠ nul)).flatMap utf16Units ++ [0] = 0 :: rest := by
  cases hhidden : value.dropWhile (· ≠ nul) with
  | nil => exact ⟨[], rfl⟩
  | cons c hidden =>
    have hc := List.head?_dropWhile_not (· ≠ nul) value
    rw [hhidden] at hc
    simp only [List.head?_cons, ne_eq, decide_not, Bool.not_eq_eq_eq_not, Bool.not_false,
      decide_eq_true_eq] at hc
    rw [hc]
    exact ⟨_, rfl⟩

/-- Digits are too few for the elements of what spells them. -/
theorem hexDigits_eq_none_of_wide {dstLen room : ℕ} (hnul : nul ∉ text)
    (h : elements order (text.flatMap utf16Units ++ behind) <+:
      filled dstLen (utf8Bytes text) ++ List.replicate room 0) :
    hexDigits (utf8Bytes text) = none := by
  by_contra hhex
  obtain ⟨digits, hdigits⟩ := Option.ne_none_iff_exists'.1 hhex
  have hlength := length_filled_of_hexDigits hdigits dstLen
  have hbytes := length_utf8Bytes_le text
  have hne : text.flatMap utf16Units ≠ [] := by
    intro hnil
    rw [hnil, List.length_nil] at hbytes
    omega
  -- the last element is not zero, and nothing was written there
  obtain ⟨c, hc, hlast⟩ := List.mem_flatMap.1 (List.getLast_mem hne)
  rw [← List.dropLast_append_getLast hne, elements_append, elements_append] at h
  have hall := forall_zero_of_prefix ((List.prefix_append _ _).trans h)
    (by rw [length_elements, List.length_dropLast]; omega)
  apply hnul
  rw [← (mem_utf16Units hlast).2 (eq_zero_of_forall_zero order (mem_utf16Units hlast).1 fun b hb =>
    hall b (by rwa [elements_cons, elements, List.flatMap_nil, List.append_nil]))]
  exact hc

/-- A text up to its first ASCII character. -/
theorem exists_multibyte_front (text : Text) : ∃ front back, front ++ back = text ∧
    (∀ c ∈ front, 0x80 ≤ c.toNat) ∧ ∀ d ∈ back.head?, d.toNat < 0x80 := by
  induction text with
  | nil => exact ⟨[], [], rfl, List.forall_mem_nil _, fun d hd => by cases hd⟩
  | cons c text ih =>
    by_cases hc : c.toNat < 0x80
    · refine ⟨[], c :: text, rfl, List.forall_mem_nil _, fun d hd => ?_⟩
      rw [← Option.some.inj hd]
      exact hc
    · obtain ⟨front, back, hparts, hmulti, hhead⟩ := ih
      exact ⟨c :: front, back, by rw [List.cons_append, hparts],
        List.forall_mem_cons.2 ⟨Nat.not_lt.1 hc, hmulti⟩, hhead⟩

/-- Of the bytes of a text only those of one ASCII character are its elements. -/
theorem ascii_of_prefix {room : ℕ} (hnul : nul ∉ text)
    (h : elements order (text.flatMap utf16Units ++ 0 :: behind) <+:
      utf8Bytes text ++ List.replicate room 0) :
    text = [] ∨ ∃ c, text = [c] ∧ c.toNat < 0x80 ∧ order = .little := by
  have hzero := zero_not_mem_utf8Bytes hnul
  -- a zero of the elements ends what the text has written
  have hend : ∀ {before after : List ℕ} {u i : ℕ},
      text.flatMap utf16Units ++ 0 :: behind = before ++ u :: after →
      i < 2 → (order.encode 2 u)[i]? = some 0 → (utf8Bytes text).length ≤ 2 * before.length + i := by
    intro before after u i heq hi hat
    rw [heq] at h
    exact le_of_prefix_filled h hzero ((elements_getElem? hi).trans hat)
  have hthree : ∀ {c : Char} {rest : Text}, text = c :: rest → 0x80 ≤ c.toNat →
      (String.utf8EncodeChar c).length = 2 * (utf16Units c).length + 1 := by
    intro c rest heq hc
    rw [heq, utf8Bytes_cons, List.flatMap_cons, List.append_assoc, List.append_assoc] at h
    exact three_bytes_of_prefix hc h
  obtain ⟨front, back, hparts, hmulti, hhead⟩ := exists_multibyte_front text
  have hfront := le_length_utf8Bytes hmulti
  -- a first character that is not ASCII has a byte more than its element
  have hmore : ∀ {c : Char} {rest : Text}, front = c :: rest →
      2 * (front.flatMap utf16Units).length < (utf8Bytes front).length := by
    intro c rest heq
    rw [heq] at hmulti hparts ⊢
    obtain ⟨hc, hrest⟩ := List.forall_mem_cons.1 hmulti
    have hc := hthree hparts.symm hc
    have hrest := le_length_utf8Bytes hrest
    rw [List.flatMap_cons, utf8Bytes_cons, List.length_append, List.length_append]
    omega
  cases back with
  | nil =>
    rw [List.append_nil] at hparts
    cases hcons : front with
    | nil => exact .inl (by rw [← hparts, hcons])
    | cons c rest =>
      have hmore := hmore hcons
      have hle := hend (u := 0) (i := 0) rfl Nat.two_pos (by cases order <;> rfl)
      rw [← hparts] at hle
      omega
  | cons d back =>
    have hd := hhead d (Option.mem_some_self d)
    have hhigh : d.toNat / 256 % 256 = 0 := by omega
    have hunits : text.flatMap utf16Units ++ 0 :: behind =
        front.flatMap utf16Units ++ d.toNat :: (back.flatMap utf16Units ++ 0 :: behind) := by
      rw [← hparts, List.flatMap_append, List.flatMap_cons, utf16Units, if_pos (by omega),
        List.append_assoc, List.append_assoc]
      rfl
    have hbytes : (utf8Bytes text).length = (utf8Bytes front).length + (1 + (utf8Bytes back).length) := by
      rw [← hparts, utf8Bytes_append, utf8Bytes_cons, utf8EncodeChar_ascii hd, List.length_append,
        List.length_append, List.length_singleton]
    cases order with
    | big =>
      have hle := hend (i := 0) hunits Nat.two_pos (by rw [encode_two, hhigh]; rfl)
      omega
    | little =>
      have hle := hend (i := 1) hunits Nat.one_lt_two (by rw [encode_two, hhigh]; rfl)
      cases hcons : front with
      | nil =>
        have hback := length_le_utf8Bytes back
        rw [hcons] at hle hbytes hparts
        have hnil : back = [] := by
          apply List.eq_nil_of_length_eq_zero
          simp only [List.flatMap_nil, List.length_nil] at hle
          omega
        rw [hnil] at hparts
        exact .inr ⟨d, hparts.symm, hd, rfl⟩
      | cons c rest =>
        have hmore := hmore hcons
        omega

/-- **When a wide text that is accepted is stored.** -/
theorem stores_wide_iff (order : ByteOrder) {length : ℕ} {value : Text}
    (haccepted : utf16Length value ≤ length) :
    Stores order true length value ↔ Decodable order true length value := by
  have hsplit : value.flatMap utf16Units = (visible value).flatMap utf16Units ++
      (value.dropWhile (· ≠ nul)).flatMap utf16Units := by
    rw [← List.flatMap_append, visible_append_hidden]
  have hlength := length_flatMap_utf16Units value
  have hparts : (value.flatMap utf16Units).length = ((visible value).flatMap utf16Units).length +
      ((value.dropWhile (· ≠ nul)).flatMap utf16Units).length := by
    rw [hsplit, List.length_append]
  unfold Stores Decodable terminated
  rw [stringBuffer_eq]
  simp only [if_true]
  change elements order _ <+: _ ↔ _
  rw [hsplit, List.append_assoc]
  constructor
  · intro hstored
    obtain ⟨rest, hrest⟩ := exists_units_hidden value
    have hhex := hexDigits_eq_none_of_wide (nul_not_mem_visible value) hstored
    rw [filled_of_hexDigits_none hhex] at hstored
    have hle : ((utf8Bytes (visible value)).take (2 * (length + 1))).length ≤
        2 * ((visible value).flatMap utf16Units).length := by
      rw [hrest] at hstored
      exact le_of_prefix_filled hstored
        (fun h => zero_not_mem_utf8Bytes (nul_not_mem_visible value) (List.mem_of_mem_take h))
        ((elements_getElem? (i := 0) Nat.two_pos).trans (by cases order <;> rfl))
    refine ⟨?_, ?_⟩
    · rw [elements_append, elements_append] at hstored
      have hall := forall_zero_of_prefix hstored (by rwa [length_elements])
      exact forall_nul_of_elements fun b hb => hall b (List.mem_append_left _ hb)
    · rw [List.length_take] at hle
      rw [hrest, List.take_of_length_le (by omega)] at hstored
      exact ascii_of_prefix (nul_not_mem_visible value) hstored
  · rintro ⟨hhidden, hvisible⟩
    rw [units_of_forall_nul hhidden, ← List.replicate_succ'] at *
    obtain hnil | ⟨c, hone, hascii, rfl⟩ := hvisible
    · rw [hnil] at hparts ⊢
      rw [List.length_replicate, List.flatMap_nil, List.length_nil] at hparts
      rw [List.flatMap_nil, List.nil_append, elements_replicate]
      change List.replicate _ 0 <+: List.replicate (2 * (length + 1)) 0
      rw [List.prefix_replicate_iff, List.length_replicate]
      exact ⟨by omega, rfl⟩
    · rw [hone] at hparts ⊢
      have hunits : [c].flatMap utf16Units = [c.toNat] := by
        rw [List.flatMap_singleton, utf16Units, if_pos (by omega)]
      have hbytes : utf8Bytes [c] = [UInt8.ofNat c.toNat] := by
        rw [utf8Bytes_cons, utf8EncodeChar_ascii hascii]
        rfl
      rw [hunits, List.length_replicate, List.length_singleton] at hparts
      have hhigh : c.toNat / 256 % 256 = 0 := by omega
      have hlow : c.toNat % 256 = c.toNat := by omega
      rw [hunits, hbytes, filled_of_hexDigits_none rfl, List.take_of_length_le (by
        rw [List.length_singleton]; omega), List.singleton_append, elements_cons, elements_replicate,
        encode_two, hhigh, hlow]
      change [UInt8.ofNat c.toNat] ++ List.replicate (2 * _ + 1) 0 <+:
        [UInt8.ofNat c.toNat] ++ List.replicate (2 * (length + 1) - 1) 0
      exact append_replicate_prefix (by omega) 0

end Wide

/-! ## Accepted texts -/

section Accepted

variable {param : Param} {wide : Bool} {length : ℕ} {value : Text}

theorem validateString_eq_ok : Corpus.validateString param wide length value = .ok () ↔
    (if wide then utf16Length value else value.length) ≤ length := by
  unfold Corpus.validateString
  split <;> simp

/-- **An accepted text is stored with its terminator only when it is decodable.** -/
theorem stores_iff_decodable (u : UnicodeData) (order : ByteOrder)
    (hspec : param.spec = .string wide length) (haccepted : Corpus.validateValue u param value = .ok ()) :
    Stores order wide length value ↔ Decodable order wide length value := by
  unfold Corpus.validateValue at haccepted
  rw [hspec] at haccepted
  have hlength := validateString_eq_ok.1 haccepted
  cases wide with
  | false => exact stores_narrow_iff order length value
  | true => exact stores_wide_iff order hlength

def nameField : Param := ⟨"NAME".toList, .string false 2, .varInput, false⟩

theorem stores_iff_decodable_nameField :
    Stores .little false 2 "ab".toList ↔ Decodable .little false 2 "ab".toList :=
  stores_iff_decodable asciiData .little (rfl : nameField.spec = _) (by decide)

/-- Two characters of two bytes each leave no room for the terminator. -/
theorem not_stores_multibyte : ¬∀ (u : UnicodeData) (order : ByteOrder) (param : Param) (wide : Bool)
    (length : ℕ) (value : Text), param.spec = .string wide length →
    Corpus.validateValue u param value = .ok () → Stores order wide length value := by
  intro h
  have hstored := h asciiData .little nameField false 2 "éé".toList rfl (by decide)
  have hlength := hstored.length_le
  exact absurd hlength (by decide)

end Accepted

end SemantiST.Harness
