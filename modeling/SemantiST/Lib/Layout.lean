import Mathlib.Algebra.Order.Floor.Div
import Mathlib.Data.List.Pairwise

/-!
# Aligned fields

The layout of a structure: every field at the lowest offset after the one before it that its alignment allows,
and padding at the end up to the alignment of the whole.
-/

namespace SemantiST.Lib

/-- What a value takes in memory. -/
structure Extent where
  size : ℕ
  align : ℕ
deriving DecidableEq, Repr

/-- The least multiple of `a` that is not below `n`. -/
def alignUp (n a : ℕ) : ℕ := (n + a - 1) / a * a

section AlignUp

variable {n m a : ℕ}

theorem dvd_alignUp (n a : ℕ) : a ∣ alignUp n a := Dvd.intro_left _ rfl

theorem le_alignUp (ha : 0 < a) : n ≤ alignUp n a := by
  have := Nat.div_add_mod (n + a - 1) a
  have := Nat.mod_lt (n + a - 1) ha
  rw [alignUp, Nat.mul_comm]
  omega

theorem alignUp_le (ha : 0 < a) (hm : a ∣ m) (h : n ≤ m) : alignUp n a ≤ m := by
  obtain ⟨k, rfl⟩ := hm
  rw [alignUp, Nat.mul_comm]
  apply Nat.mul_le_mul_left
  rw [Nat.div_le_iff_le_mul_add_pred ha]
  omega

theorem alignUp_of_dvd (ha : 0 < a) (h : a ∣ n) : alignUp n a = n :=
  Nat.le_antisymm (alignUp_le ha h (Nat.le_refl n)) (le_alignUp ha)

/-- The padding, as a program computes it. -/
theorem alignUp_eq_add (ha : 0 < a) (h : n % a ≠ 0) : alignUp n a = n + (a - n % a) := by
  have hlt := Nat.mod_lt n ha
  have hdvd : a ∣ n + (a - n % a) := by
    refine ⟨n / a + 1, ?_⟩
    have := Nat.div_add_mod n a
    rw [Nat.mul_add]
    omega
  apply Nat.le_antisymm (alignUp_le ha hdvd (by omega))
  obtain ⟨k, hk⟩ := dvd_alignUp n a
  have hle := le_alignUp (n := n) ha
  have hdiv := Nat.div_add_mod n a
  rw [hk] at hle ⊢
  have hne : a * (n / a) < a * k := by omega
  have := Nat.lt_of_mul_lt_mul_left hne
  have : a * (n / a + 1) ≤ a * k := Nat.mul_le_mul_left _ this
  rw [Nat.mul_add] at this
  omega

end AlignUp

/-! ## Fields one after the other -/

/-- Where a field of a structure stands. -/
structure Slot where
  offset : ℕ
  extent : Extent
deriving DecidableEq, Repr

def Slot.stop (s : Slot) : ℕ := s.offset + s.extent.size

/-- The fields from an offset on, and where the last one ends; `packed` leaves out the padding. -/
def placeFields (packed : Bool) : ℕ → List Extent → List Slot × ℕ
  | offset, [] => ([], offset)
  | offset, field :: fields =>
    let start := if packed then offset else alignUp offset field.align
    let (slots, stop) := placeFields packed (start + field.size) fields
    (⟨start, field⟩ :: slots, stop)

def structAlign (packed : Bool) (fields : List Extent) : ℕ :=
  if packed then 1 else (fields.map Extent.align).foldl max 1

/-- The extent of a structure. -/
def structExtent (packed : Bool) (fields : List Extent) : Extent :=
  let align := structAlign packed fields
  ⟨alignUp (placeFields packed 0 fields).2 align, align⟩

section Place

variable {packed : Bool} {offset : ℕ} {fields : List Extent} {slot : Slot}

/-- **The fields stand one after the other**, from the offset to the end. -/
theorem placeFields_spec (packed : Bool) (offset : ℕ) (h : ∀ field ∈ fields, 0 < field.align) :
    offset ≤ (placeFields packed offset fields).2 ∧
      (∀ slot ∈ (placeFields packed offset fields).1, offset ≤ slot.offset ∧
        slot.stop ≤ (placeFields packed offset fields).2 ∧ (packed = false → slot.extent.align ∣ slot.offset)) ∧
      (placeFields packed offset fields).1.Pairwise fun first second => first.stop ≤ second.offset := by
  induction fields generalizing offset with
  | nil => exact ⟨Nat.le_refl _, fun _ h => (nomatch h), List.Pairwise.nil⟩
  | cons field fields ih =>
    rw [placeFields]
    dsimp only
    generalize hstart : (if packed then offset else alignUp offset field.align) = start
    have hle : offset ≤ start := by
      rw [← hstart]
      split
      · exact Nat.le_refl _
      · exact le_alignUp (h field List.mem_cons_self)
    have halign : packed = false → field.align ∣ start := by
      rintro rfl
      rw [← hstart, if_neg Bool.false_ne_true]
      exact dvd_alignUp _ _
    obtain ⟨hstop, hslots, hpairwise⟩ := ih (start + field.size) fun f hf => h f (List.mem_cons_of_mem _ hf)
    refine ⟨by omega, ?_, List.pairwise_cons.2 ⟨fun slot hslot => (hslots slot hslot).1, hpairwise⟩⟩
    intro slot hslot
    rcases List.mem_cons.1 hslot with rfl | hslot
    · exact ⟨hle, hstop, halign⟩
    · obtain ⟨hfrom, hto, hdvd⟩ := hslots slot hslot
      exact ⟨by omega, hto, hdvd⟩

theorem le_foldl_max (n : ℕ) (l : List ℕ) : n ≤ l.foldl max n ∧ ∀ m ∈ l, m ≤ l.foldl max n := by
  induction l generalizing n with
  | nil => exact ⟨Nat.le_refl n, fun _ h => nomatch h⟩
  | cons k l ih =>
    obtain ⟨hn, hl⟩ := ih (max n k)
    refine ⟨(Nat.le_max_left n k).trans hn, fun m hm => ?_⟩
    rcases List.mem_cons.1 hm with rfl | hm
    · exact (Nat.le_max_right n m).trans hn
    · exact hl m hm

theorem structAlign_pos : 0 < structAlign packed fields := by
  unfold structAlign
  split
  · exact Nat.one_pos
  · exact (le_foldl_max 1 _).1

/-- The fields stand inside the structure. -/
theorem stop_le_structExtent (h : ∀ field ∈ fields, 0 < field.align)
    (hslot : slot ∈ (placeFields packed 0 fields).1) : slot.stop ≤ (structExtent packed fields).size :=
  ((placeFields_spec _ _ h).2.1 slot hslot).2.1.trans (le_alignUp structAlign_pos)

end Place

end SemantiST.Lib
