import SemantiST.Lib.Rust

/-!
# UTF-8

Texts as bytes, and `bytes.decode("utf-8", errors="replace")`, which reads every byte string.
-/

namespace SemantiST.Lib

def utf8Bytes (text : Text) : List UInt8 := text.flatMap String.utf8EncodeChar

/-- The range of a second byte after a first one. -/
def secondByte (first : UInt8) : Option (ℕ × ℕ) :=
  let b := first.toNat
  if b = 0xe0 then some (0xa0, 0xbf)
  else if b = 0xed then some (0x80, 0x9f)
  else if b = 0xf0 then some (0x90, 0xbf)
  else if b = 0xf4 then some (0x80, 0x8f)
  else if 0xc2 ≤ b ∧ b < 0xf4 then some (0x80, 0xbf)
  else none

/-- The length of what one replacement stands for, where no character starts: the longest part of a
sequence, or one byte. -/
def invalidLength : List UInt8 → ℕ
  | first :: second :: rest =>
    if (secondByte first).any fun range => range.1 ≤ second.toNat && second.toNat ≤ range.2 then
      2 + (rest.takeWhile fun b => 0x80 ≤ b.toNat && b.toNat ≤ 0xbf).length
    else 1
  | _ => 1

/-- For at most so many characters. -/
def decodeFrom : ℕ → List UInt8 → Text
  | 0, _ => []
  | _, [] => []
  | fuel + 1, bytes =>
    match bytes.toByteArray.utf8DecodeChar? 0 with
    | some c => c :: decodeFrom fuel (bytes.drop c.utf8Size)
    | none => '\ufffd' :: decodeFrom fuel (bytes.drop (invalidLength bytes))

def decodeReplace (bytes : List UInt8) : Text := decodeFrom bytes.length bytes

/-- Bytes of a character are followed by those of the rest. -/
theorem decodeFrom_utf8Bytes (text : Text) (fuel : ℕ) (hfuel : text.length ≤ fuel) :
    decodeFrom fuel (utf8Bytes text) = text := by
  induction text generalizing fuel with
  | nil => cases fuel <;> rfl
  | cons c text ih =>
    rw [List.length_cons] at hfuel
    obtain ⟨fuel, rfl⟩ : ∃ n, fuel = n + 1 := ⟨fuel - 1, by omega⟩
    have hbytes : utf8Bytes (c :: text) = String.utf8EncodeChar c ++ utf8Bytes text := rfl
    have hlength : (String.utf8EncodeChar c).length = c.utf8Size := String.length_utf8EncodeChar c
    have hpos : 0 < c.utf8Size := Char.utf8Size_pos c
    have hdecode : (utf8Bytes (c :: text)).toByteArray.utf8DecodeChar? 0 = some c := by
      rw [hbytes, List.toByteArray_append]
      exact ByteArray.utf8DecodeChar?_utf8EncodeChar_append
    cases hcons : utf8Bytes (c :: text) with
    | nil =>
      rw [hbytes] at hcons
      have := congrArg List.length hcons
      rw [List.length_append, hlength, List.length_nil] at this
      omega
    | cons b bytes =>
      rw [hcons] at hdecode
      simp only [decodeFrom, hdecode]
      rw [← hcons, hbytes, ← hlength, List.drop_left, ih fuel (by omega)]

theorem length_le_utf8Bytes (text : Text) : text.length ≤ (utf8Bytes text).length := by
  induction text with
  | nil => exact Nat.le_refl _
  | cons c text ih =>
    have hpos : 0 < c.utf8Size := Char.utf8Size_pos c
    rw [utf8Bytes, List.flatMap_cons, List.length_append, String.length_utf8EncodeChar, List.length_cons]
    change text.length + 1 ≤ c.utf8Size + (utf8Bytes text).length
    omega

/-- **The bytes of a text are read as the text.** -/
theorem decodeReplace_utf8Bytes (text : Text) : decodeReplace (utf8Bytes text) = text :=
  decodeFrom_utf8Bytes text _ (length_le_utf8Bytes text)

/-! ## The bytes of one character -/

section Bytes

variable {c : Char} {text text' : Text}

theorem utf8EncodeChar_ascii (h : c.toNat < 0x80) : String.utf8EncodeChar c = [UInt8.ofNat c.toNat] := by
  have h : c.val.toNat ≤ 127 := Nat.le_of_lt_succ h
  unfold String.utf8EncodeChar
  dsimp only
  rw [if_pos h]
  rfl

/-- The bytes of a character that is not ASCII. -/
structure Multibyte (c : Char) (first second : UInt8) (rest : List UInt8) : Prop where
  leading : 0xc0 ≤ first.toNat
  continued : 0x80 ≤ second.toNat ∧ second.toNat < 0xc0
  others : ∀ b ∈ rest, 0x80 ≤ b.toNat
  supplementary : 0x10000 ≤ c.toNat → 0xf0 ≤ first.toNat

theorem utf8EncodeChar_multibyte (h : 0x80 ≤ c.toNat) : ∃ first second rest,
    String.utf8EncodeChar c = first :: second :: rest ∧ Multibyte c first second rest := by
  have hval : c.val.toNat = c.toNat := rfl
  unfold String.utf8EncodeChar
  dsimp only
  rw [hval, if_neg (by omega)]
  split
  · refine ⟨_, _, _, rfl, ?_, ?_, ?_, ?_⟩ <;> simp <;> omega
  · split
    · refine ⟨_, _, _, rfl, ?_, ?_, ?_, ?_⟩ <;> simp <;> omega
    · refine ⟨_, _, _, rfl, ?_, ?_, ?_, ?_⟩ <;> simp <;> omega

/-- No byte of a character but NUL is zero. -/
theorem ne_zero_of_mem_utf8EncodeChar (h : c ≠ nul) {b : UInt8} (hb : b ∈ String.utf8EncodeChar c) :
    b ≠ 0 := by
  by_cases hascii : c.toNat < 0x80
  · rw [utf8EncodeChar_ascii hascii, List.mem_singleton] at hb
    rintro rfl
    have hzero : c.toNat = nul.toNat := by
      have hb : 0 = (UInt8.ofNat c.toNat).toNat := congrArg UInt8.toNat hb
      rw [UInt8.toNat_ofNat'] at hb
      change c.toNat = 0
      omega
    exact h (Char.toNat_inj.1 hzero)
  · obtain ⟨first, second, rest, heq, hbytes⟩ := utf8EncodeChar_multibyte (Nat.not_lt.1 hascii)
    rw [heq, List.mem_cons, List.mem_cons] at hb
    rintro rfl
    obtain rfl | rfl | hb := hb
    · exact absurd hbytes.leading (by decide)
    · exact absurd hbytes.continued.1 (by decide)
    · exact absurd (hbytes.others 0 hb) (by decide)

theorem utf8Bytes_append : utf8Bytes (text ++ text') = utf8Bytes text ++ utf8Bytes text' :=
  List.flatMap_append

theorem utf8Bytes_cons : utf8Bytes (c :: text) = String.utf8EncodeChar c ++ utf8Bytes text := rfl

/-- No byte of a text without NUL is zero. -/
theorem zero_not_mem_utf8Bytes (h : nul ∉ text) : 0 ∉ utf8Bytes text := by
  intro hmem
  obtain ⟨c, hc, hb⟩ := List.mem_flatMap.1 hmem
  exact ne_zero_of_mem_utf8EncodeChar (fun heq => h (heq ▸ hc)) hb rfl

/-! ## UTF-16 -/

/-- The code units of a character. -/
def utf16Units (c : Char) : List ℕ :=
  if c.toNat < 0x10000 then [c.toNat]
  else [0xd800 + (c.toNat - 0x10000) / 0x400, 0xdc00 + (c.toNat - 0x10000) % 0x400]

/-- The bytes of a character are at most three for each code unit, and at least two when it is not
ASCII. -/
theorem length_utf8EncodeChar_units (c : Char) :
    (String.utf8EncodeChar c).length ≤ 3 * (utf16Units c).length ∧
      (0x80 ≤ c.toNat → 2 * (utf16Units c).length ≤ (String.utf8EncodeChar c).length) ∧
      (0x800 ≤ c.toNat → c.toNat < 0x10000 → (String.utf8EncodeChar c).length = 3) := by
  have hval : c.val.toNat = c.toNat := rfl
  unfold String.utf8EncodeChar utf16Units
  dsimp only
  rw [hval]
  split
  · split <;> simp <;> omega
  · split
    · split <;> simp <;> omega
    · split
      · split <;> simp
        omega
      · split
        · simp
          omega
        · simp
          omega

end Bytes

end SemantiST.Lib
