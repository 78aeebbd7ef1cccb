import Mathlib.Tactic.Linarith
import SemantiST.Lib.Python

/-!
# Double precision

Numbers that are not negative, rounded to doubles: what is not zero stays away from zero.
-/

namespace SemantiST.Lib

/-- A number that is not negative, as a double holds it. -/
def f64 (q : ℚ) : ℚ := nearestBinary 53 (-1074) q

/-- The least double above zero. -/
def leastDouble : ℚ := 2 ^ (-1074 : ℤ)

variable {q : ℚ}

theorem leastDouble_pos : 0 < leastDouble := by
  unfold leastDouble
  exact zpow_pos two_pos _

theorem one_le_roundHalfEven (h : 1 ≤ q) : 1 ≤ roundHalfEven q := by
  have hfloor : 1 ≤ ⌊q⌋ := Int.le_floor.2 (by exact_mod_cast h)
  simp only [roundHalfEven]
  split
  · exact hfloor
  · split
    · omega
    · split <;> omega

theorem roundHalfEven_le (q : ℚ) : (roundHalfEven q : ℚ) ≤ q + 1 / 2 := by
  have hle : (⌊q⌋ : ℚ) ≤ q := Int.floor_le q
  simp only [roundHalfEven]
  split
  · linarith
  · split
    · push_cast
      linarith
    · split
      · linarith
      · push_cast
        linarith

theorem le_roundHalfEven (q : ℚ) : q - 1 / 2 ≤ (roundHalfEven q : ℚ) := by
  have hlt : q < (⌊q⌋ : ℚ) + 1 := Int.lt_floor_add_one q
  simp only [roundHalfEven]
  split
  · linarith
  · split
    · push_cast
      linarith
    · split
      · linarith
      · push_cast
        linarith

/-- The unit in the last place is at most the number. -/
theorem ulp_le (h : leastDouble ≤ q) :
    (2 : ℚ) ^ max (Int.log 2 q + 1 - 53) (-1074) ≤ q := by
  have hpos : 0 < q := leastDouble_pos.trans_le h
  rcases le_total (Int.log 2 q + 1 - 53) (-1074) with hcase | hcase
  · rw [max_eq_right hcase]
    exact h
  · rw [max_eq_left hcase]
    calc (2 : ℚ) ^ (Int.log 2 q + 1 - 53) ≤ 2 ^ Int.log 2 q :=
          zpow_le_zpow_right₀ (by norm_num) (by omega)
      _ ≤ q := by exact_mod_cast Int.zpow_log_le_self (by norm_num) hpos

theorem f64_eq (h : 0 < q) :
    f64 q = roundHalfEven (q / 2 ^ max (Int.log 2 q + 1 - 53) (-1074)) *
      2 ^ max (Int.log 2 q + 1 - 53) (-1074) := by
  rw [f64, nearestBinary, if_neg (not_le.2 h)]

@[simp]
theorem f64_zero : f64 0 = 0 := by
  rw [f64, nearestBinary, if_pos le_rfl]

theorem leastDouble_le_f64 (h : leastDouble ≤ q) : leastDouble ≤ f64 q := by
  have hpos : (0 : ℚ) < 2 ^ max (Int.log 2 q + 1 - 53) (-1074) :=
    zpow_pos two_pos _
  have hround : (1 : ℚ) ≤ roundHalfEven (q / 2 ^ max (Int.log 2 q + 1 - 53) (-1074)) := by
    exact_mod_cast one_le_roundHalfEven ((one_le_div hpos).2 (ulp_le h))
  rw [f64_eq (leastDouble_pos.trans_le h)]
  calc leastDouble ≤ 2 ^ max (Int.log 2 q + 1 - 53) (-1074) :=
        zpow_le_zpow_right₀ (by norm_num) (le_max_right _ _)
    _ = 1 * 2 ^ max (Int.log 2 q + 1 - 53) (-1074) := (one_mul _).symm
    _ ≤ _ := mul_le_mul_of_nonneg_right hround hpos.le

theorem f64_le (h : leastDouble ≤ q) : f64 q ≤ 2 * q := by
  have hpos : (0 : ℚ) < 2 ^ max (Int.log 2 q + 1 - 53) (-1074) :=
    zpow_pos two_pos _
  have hulp := ulp_le h
  rw [f64_eq (leastDouble_pos.trans_le h)]
  calc _ ≤ (q / 2 ^ max (Int.log 2 q + 1 - 53) (-1074) + 1 / 2) *
          2 ^ max (Int.log 2 q + 1 - 53) (-1074) :=
        mul_le_mul_of_nonneg_right (roundHalfEven_le _) hpos.le
    _ = q + 1 / 2 * 2 ^ max (Int.log 2 q + 1 - 53) (-1074) := by
        rw [add_mul, div_mul_cancel₀ _ hpos.ne']
    _ ≤ 2 * q := by linarith

theorem le_f64 (h : leastDouble ≤ q) : q / 2 ≤ f64 q := by
  have hpos : (0 : ℚ) < 2 ^ max (Int.log 2 q + 1 - 53) (-1074) :=
    zpow_pos two_pos _
  have hulp := ulp_le h
  rw [f64_eq (leastDouble_pos.trans_le h)]
  calc q / 2 ≤ q - 1 / 2 * 2 ^ max (Int.log 2 q + 1 - 53) (-1074) := by linarith
    _ = (q / 2 ^ max (Int.log 2 q + 1 - 53) (-1074) - 1 / 2) *
          2 ^ max (Int.log 2 q + 1 - 53) (-1074) := by
        rw [sub_mul, div_mul_cancel₀ _ hpos.ne']
    _ ≤ _ := mul_le_mul_of_nonneg_right (le_roundHalfEven _) hpos.le

theorem leastDouble_le_zpow {k : ℤ} (h : -1074 ≤ k) : leastDouble ≤ 2 ^ k :=
  zpow_le_zpow_right₀ (by norm_num) h

theorem f64_eq_zero_iff (h : q = 0 ∨ leastDouble ≤ q) : f64 q = 0 ↔ q = 0 := by
  rcases h with rfl | h
  · simp
  · have hpos := leastDouble_pos
    have hle := leastDouble_le_f64 h
    constructor
    · intro hzero
      linarith
    · intro hzero
      linarith

end SemantiST.Lib
