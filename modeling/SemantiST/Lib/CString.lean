import Mathlib.Algebra.Order.Group.Nat
import Mathlib.Algebra.BigOperators.Group.List.Basic
import SemantiST.Lib.Rust

/-!
# Strings of C

A buffer is the list of its characters, a string in it is what stands before the first NUL.  Every
store says whether it stays inside the buffer.
-/

namespace SemantiST.Lib

/-! ## Buffers -/

/-- A fresh buffer of `size` characters; what it holds is not determined. -/
def malloc (garbage : ℕ → Char) (size : ℕ) : Text := (List.range size).map garbage

/-- The string in a buffer, `none` where the buffer has no NUL. -/
def cString : Text → Option Text
  | [] => none
  | c :: buffer => if c = nul then some [] else (cString buffer).map (c :: ·)

def strlen (buffer : Text) : Option ℕ := (cString buffer).map List.length

/-- The characters are stored from `index` on, `none` where the buffer ends before they do. -/
def store (buffer : Text) (index : ℕ) (text : Text) : Option Text :=
  if index + text.length ≤ buffer.length then
    some (buffer.take index ++ text ++ buffer.drop (index + text.length))
  else none

section

variable {buffer text rest : Text} {size : ℕ} {garbage : ℕ → Char}

@[simp]
theorem length_malloc : (malloc garbage size).length = size := by
  rw [malloc, List.length_map, List.length_range]

/-- The buffer holds the string, and more characters after its NUL. -/
def Holds (buffer text : Text) : Prop := ∃ rest, buffer = text ++ nul :: rest ∧ nul ∉ text

theorem Holds.cString_eq (h : Holds buffer text) : cString buffer = some text := by
  obtain ⟨rest, rfl, hnul⟩ := h
  induction text with
  | nil => rfl
  | cons c text ih =>
    rw [List.mem_cons, not_or] at hnul
    rw [List.cons_append, cString, if_neg (Ne.symm hnul.1), ih hnul.2, Option.map_some]

theorem Holds.strlen_eq (h : Holds buffer text) : strlen buffer = some text.length := by
  rw [strlen, h.cString_eq, Option.map_some]

theorem holds_set_zero (h : 0 < buffer.length) : Holds (buffer.set 0 nul) [] := by
  cases buffer with
  | nil => cases h
  | cons c buffer => exact ⟨buffer, rfl, List.not_mem_nil⟩

/-- A text and a NUL stored at the end of the string follow it. -/
theorem Holds.store (h : Holds buffer text) {more : Text} (hnul : nul ∉ more)
    (hroom : text.length + more.length + 1 ≤ buffer.length) :
    ∃ buffer', store buffer text.length (more ++ [nul]) = some buffer' ∧ Holds buffer' (text ++ more) ∧
      buffer'.length = buffer.length := by
  obtain ⟨rest, rfl, htext⟩ := h
  have hroom' : text.length + (more ++ [nul]).length ≤ (text ++ nul :: rest).length := by
    rw [List.length_append, List.length_singleton]
    omega
  refine ⟨_, if_pos hroom', ⟨(text ++ nul :: rest).drop (text.length + (more ++ [nul]).length), ?_, ?_⟩, ?_⟩
  · rw [List.take_left, List.append_assoc, List.append_assoc, List.append_assoc, List.singleton_append]
  · rw [List.mem_append]
    exact fun hmem => hmem.elim htext hnul
  · rw [List.take_left, List.length_append, List.length_append, List.length_drop]
    omega

end

/-! ## Tokens -/

/-- The tokens that repeated calls of `strtok_r` give: what stands between delimiters, the empty
pieces left out. -/
def strtok (delim : Char) (text : Text) : List Text := (text.splitOn delim).filter (· ≠ [])

section

variable {delim c : Char} {text piece : Text}

/-- The pieces of a text and the delimiters between them are the text. -/
theorem sum_length_splitOn (delim : Char) (text : Text) :
    ((text.splitOn delim).map fun piece => piece.length + 1).sum = text.length + 1 := by
  induction text with
  | nil => rfl
  | cons c text ih =>
    rw [List.splitOn_cons_eq_if_modifyHead]
    split
    · rw [List.map_cons, List.sum_cons, ih, List.length_nil, List.length_cons]
      omega
    · cases hpieces : text.splitOn delim with
      | nil => exact absurd hpieces (List.splitOn_ne_nil _ _)
      | cons piece pieces =>
        rw [hpieces, List.map_cons, List.sum_cons] at ih
        rw [List.modifyHead_cons, List.map_cons, List.sum_cons, List.length_cons, List.length_cons]
        omega

theorem mem_of_mem_splitOn (h : piece ∈ text.splitOn delim) (hc : c ∈ piece) : c ∈ text := by
  induction text generalizing piece with
  | nil =>
    rw [List.splitOn_nil, List.mem_singleton] at h
    rwa [h] at hc
  | cons d text ih =>
    rw [List.splitOn_cons_eq_if_modifyHead] at h
    split at h
    · rcases List.mem_cons.1 h with rfl | h
      · cases hc
      · exact List.mem_cons_of_mem _ (ih h hc)
    · cases hpieces : text.splitOn delim with
      | nil => exact absurd hpieces (List.splitOn_ne_nil _ _)
      | cons first pieces =>
        rw [hpieces, List.modifyHead_cons] at h
        rcases List.mem_cons.1 h with rfl | h
        · rcases List.mem_cons.1 hc with rfl | hc
          · exact List.mem_cons_self
          · exact List.mem_cons_of_mem _ (ih (hpieces ▸ List.mem_cons_self) hc)
        · exact List.mem_cons_of_mem _ (ih (hpieces ▸ List.mem_cons_of_mem _ h) hc)

theorem mem_of_mem_strtok (h : piece ∈ strtok delim text) (hc : c ∈ piece) : c ∈ text :=
  mem_of_mem_splitOn (List.mem_of_mem_filter h) hc

theorem sum_map_filter_le {α : Type} (p : α → Bool) (f : α → ℕ) (l : List α) :
    ((l.filter p).map f).sum ≤ (l.map f).sum := by
  induction l with
  | nil => exact le_rfl
  | cons a l ih =>
    rw [List.map_cons, List.sum_cons, List.filter_cons]
    split
    · rw [List.map_cons, List.sum_cons]
      omega
    · omega

/-- What a filter takes away is missing from the sum. -/
theorem sum_map_le_filter_iff {α : Type} {p : α → Bool} {f : α → ℕ} (hf : ∀ a, 0 < f a) (l : List α) :
    (l.map f).sum ≤ ((l.filter p).map f).sum ↔ ∀ a ∈ l, p a = true := by
  induction l with
  | nil => simp
  | cons a l ih =>
    rw [List.map_cons, List.sum_cons, List.filter_cons, List.forall_mem_cons]
    split
    · rename_i ha
      rw [List.map_cons, List.sum_cons, Nat.add_le_add_iff_left, ih, and_iff_right ha]
    · rename_i ha
      have hle := sum_map_filter_le p f l
      have hpos := hf a
      constructor
      · intro h
        omega
      · intro h
        exact absurd h.1 ha

/-- The tokens of a class, each with one more character, are longer than the text only where every
piece is one of them. -/
theorem length_lt_sum_tokens {p : Text → Bool} (hnil : p [] = false) (text : Text) :
    text.length < (((strtok delim text).filter p).map fun piece => piece.length + 1).sum ↔
      ∀ piece ∈ text.splitOn delim, p piece = true := by
  have hfilter : (strtok delim text).filter p = (text.splitOn delim).filter p := by
    rw [strtok, List.filter_filter]
    apply List.filter_congr
    intro piece _
    cases piece with
    | nil => rw [hnil, Bool.false_and]
    | cons c piece => rw [decide_eq_true (List.cons_ne_nil _ _), Bool.and_true]
  rw [hfilter, ← sum_map_le_filter_iff (fun piece => Nat.succ_pos piece.length), sum_length_splitOn]
  rfl

end

end SemantiST.Lib
