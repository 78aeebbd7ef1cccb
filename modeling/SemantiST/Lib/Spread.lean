import Mathlib.Data.List.Range
import Mathlib.Data.List.Pairwise
import Mathlib.Tactic.Ring

/-!
# Spreading picks over a list

Of `length` places `total` picks take the place `j * length / total` for pick `j`.
-/

namespace SemantiST.Lib

variable {length total j : ℕ}

/-- The place that pick `j` takes. -/
def spread (length total j : ℕ) : ℕ := j * length / total

theorem spread_lt (hlength : 0 < length) (hj : j < total) : spread length total j < length := by
  rw [spread, Nat.div_lt_iff_lt_mul (Nat.zero_lt_of_lt hj), Nat.mul_comm length total]
  exact Nat.mul_lt_mul_of_pos_right hj hlength

/-- Picks that are far enough apart take different places, in their order. -/
theorem spread_lt_spread {step : ℕ} (htotal : 0 < total) (hstep : total ≤ step * length) :
    spread length total j < spread length total (j + step) := by
  have hone : spread length total j + 1 = (j * length + total) / total := by
    rw [spread, Nat.add_div_right _ htotal]
  have hsum : (j + step) * length = j * length + step * length := Nat.add_mul j step length
  rw [Nat.lt_iff_add_one_le, hone, spread, hsum]
  exact Nat.div_le_div_right (Nat.add_le_add_left hstep _)

/-- With as many picks as places every place is taken. -/
theorem exists_spread_eq (place : ℕ) (hplace : place < length) (htotal : length ≤ total) :
    ∃ j < total, spread length total j = place := by
  have hlength : 0 < length := Nat.zero_lt_of_lt hplace
  -- the first pick at or after the place
  refine ⟨(place * total + (length - 1)) / length, ?_, ?_⟩
  · rw [Nat.div_lt_iff_lt_mul hlength]
    have hle : (place + 1) * total ≤ length * total := Nat.mul_le_mul_right total hplace
    rw [Nat.add_mul, Nat.one_mul] at hle
    rw [Nat.mul_comm total length]
    omega
  · set j := (place * total + (length - 1)) / length with hj
    have hbelow : j * length ≤ place * total + (length - 1) := Nat.div_mul_le_self _ _
    have habove : place * total + (length - 1) < (j + 1) * length := by
      rw [Nat.mul_comm (j + 1)]
      exact Nat.lt_mul_div_succ _ hlength
    rw [Nat.add_mul, Nat.one_mul] at habove
    refine Nat.div_eq_of_lt_le ?_ ?_
    · omega
    · rw [Nat.add_mul, Nat.one_mul]
      omega

end SemantiST.Lib
