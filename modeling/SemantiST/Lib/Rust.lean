import Mathlib.Algebra.Order.Group.Unbundled.Int
import SemantiST.Lib.Text

/-!
# The Rust standard library

Texts and machine integers, as far as the engine and the scheduler use them.
-/

namespace SemantiST.Lib

/-! ## Machine integers -/

def i128Min : ℤ := -2 ^ 127
def i128Max : ℤ := 2 ^ 127 - 1
def u32Max : ℕ := 2 ^ 32 - 1
def u64Max : ℕ := 2 ^ 64 - 1

/-- Negation of an `i128`, which wraps at the smallest value. -/
def negI128 (v : ℤ) : ℤ := if v = i128Min then v else -v

/-- `u64::saturating_add`. -/
def saturatingAdd (a b : ℕ) : ℕ := min (a + b) u64Max

/-! ## Texts -/

/-- `char::is_whitespace`: the Unicode property White_Space. -/
def isWhitespace (c : Char) : Bool :=
  let n := c.toNat
  (9 ≤ n && n ≤ 13) || n == 0x20 || n == 0x85 || n == 0xa0 || n == 0x1680 ||
    (0x2000 ≤ n && n ≤ 0x200a) || n == 0x2028 || n == 0x2029 || n == 0x202f || n == 0x205f ||
    n == 0x3000

/-- A line without what ends it: a line feed, or a carriage return before it. -/
def lineBody (line : Text) : Text :=
  match stripSuffix '\n' line with
  | none => line
  | some line => (stripSuffix '\r' line).getD line

/-- `str::lines`. -/
def lines (text : Text) : List Text := (splitInclusive '\n' text).map lineBody

theorem mem_of_mem_lines {text raw : Text} {c : Char} (h : raw ∈ lines text) (hc : c ∈ raw) :
    c ∈ text := by
  obtain ⟨l, hl, rfl⟩ := List.mem_map.1 h
  refine mem_of_mem_splitInclusive hl ?_
  unfold lineBody at hc
  split at hc
  · exact hc
  · rename_i b hb
    have hsub {s b : Text} {d : Char} (hs : stripSuffix d s = some b) : ∀ c ∈ b, c ∈ s := by
      unfold stripSuffix at hs
      split at hs
      · obtain rfl := Option.some.inj hs
        exact fun c hc => List.dropLast_subset _ hc
      · cases hs
    refine hsub hb c ?_
    cases hr : stripSuffix '\r' b with
    | none => simpa [hr] using hc
    | some b' =>
      rw [hr] at hc
      exact hsub hr c hc

theorem splitInclusive_unlines {ls : List Text} (h : ∀ l ∈ ls, '\n' ∉ l) :
    splitInclusive '\n' (unlines ls) = ls.map (· ++ ['\n']) := by
  induction ls with
  | nil => rfl
  | cons l ls ih =>
    rw [unlines_cons, splitInclusive_append (h l List.mem_cons_self),
      ih fun l' hl' => h l' (List.mem_cons_of_mem _ hl'), List.map_cons]

/-- The lines of a text are read back if none holds a line feed or ends with a carriage return. -/
theorem lines_unlines {ls : List Text} (h : ∀ l ∈ ls, '\n' ∉ l ∧ l.getLast? ≠ some '\r') :
    lines (unlines ls) = ls := by
  rw [lines, splitInclusive_unlines fun l hl => (h l hl).1, List.map_map]
  conv_rhs => rw [← List.map_id ls]
  refine List.map_congr_left fun l hl => ?_
  simp [lineBody, stripSuffix, (h l hl).2]

theorem newline_of_mem_lines {text raw : Text} (h : raw ∈ lines text) : '\n' ∉ raw := by
  obtain ⟨l, hl, rfl⟩ := List.mem_map.1 h
  obtain ⟨body, hbody, rfl | rfl⟩ := mem_splitInclusive hl
  · have hlast : l.getLast? ≠ some '\n' := fun hlast => hbody (List.mem_of_mem_getLast? hlast)
    simpa [lineBody, stripSuffix, hlast] using hbody
  · rw [lineBody, stripSuffix_concat]
    simp only [stripSuffix]
    split
    · exact fun hmem => hbody (List.dropLast_subset _ hmem)
    · exact hbody

/-- `from_str_radix` of a signed type whose values lie between `lo` and `hi`. -/
def parseSigned (digit : Char → Option ℕ) (base : ℕ) (lo hi : ℤ) (s : Text) : Option ℤ :=
  let (negative, digits) :=
    match s with
    | '-' :: rest => (true, rest)
    | '+' :: rest => (false, rest)
    | _ => (false, s)
  (readNumber digit base digits).bind fun n =>
    let v : ℤ := if negative then -n else n
    if lo ≤ v ∧ v ≤ hi then some v else none

/-- `parse` of an unsigned type whose values are at most `max`. -/
def parseUnsigned (max : ℕ) (s : Text) : Option ℕ :=
  let digits :=
    match s with
    | '+' :: rest => rest
    | _ => s
  (readNumber decDigit 10 digits).bind fun n => if n ≤ max then some n else none

theorem parseUnsigned_eq_some {max n : ℕ} {s : Text} (h : parseUnsigned max s = some n) :
    n ≤ max ∧ ((∃ digits, s = '+' :: digits ∧ readNumber decDigit 10 digits = some n) ∨
      readNumber decDigit 10 s = some n) := by
  unfold parseUnsigned at h
  obtain ⟨m, hm, h⟩ := Option.bind_eq_some_iff.1 h
  split at h
  · rename_i hle
    obtain rfl := Option.some.inj h
    refine ⟨hle, ?_⟩
    split at hm
    · rename_i digits
      exact .inl ⟨digits, rfl, hm⟩
    · exact .inr hm
  · cases h

/-- `encode_utf16().count()`. -/
def utf16Length (s : Text) : ℕ := (s.map fun c => if c.toNat < 0x10000 then 1 else 2).sum

/-- `String::len`: the length in UTF-8. -/
def utf8Length (s : Text) : ℕ := (s.map Char.utf8Size).sum

/-- The character `CString::new` refuses. -/
def nul : Char := Char.ofNat 0

end SemantiST.Lib
