import SemantiST.Lib.Double

/-!
# Floating-point numbers

The values of single and double precision as exact rationals, infinities and NaN, and how they compare.
-/

namespace SemantiST.Lib

/-- A floating-point number; the two zeros, which compare as equal, are one. -/
inductive FloatNumber where
  | nan
  | infinite (negative : Bool)
  | finite (q : ℚ)
deriving DecidableEq

inductive FloatFormat where
  | single | double
deriving DecidableEq

namespace FloatFormat

def precision : FloatFormat → ℕ
  | single => 24
  | double => 53

def leastExponent : FloatFormat → ℤ
  | single => -149
  | double => -1074

def greatestExponent : FloatFormat → ℤ
  | single => 104
  | double => 971

/-- The numbers that a format has. -/
def Holds (f : FloatFormat) : FloatNumber → Prop
  | .nan | .infinite _ => True
  | .finite q => ∃ m e : ℤ, |m| < 2 ^ f.precision ∧ f.leastExponent ≤ e ∧ e ≤ f.greatestExponent ∧ q = m * 2 ^ e

/-- The numbers of a format. -/
abbrev Number (f : FloatFormat) := { x : FloatNumber // f.Holds x }

/-- A single is a double. -/
theorem holds_double {f : FloatFormat} {x : FloatNumber} (h : f.Holds x) : FloatFormat.double.Holds x := by
  cases x with
  | nan => trivial
  | infinite => trivial
  | finite q =>
    obtain ⟨m, e, hm, hle, hge, hq⟩ := h
    cases f with
    | double => exact ⟨m, e, hm, hle, hge, hq⟩
    | single =>
      refine ⟨m, e, hm.trans (pow_lt_pow_right₀ (by norm_num) (by decide)), ?_, ?_, hq⟩
      · exact le_trans (by decide) hle
      · exact le_trans hge (by decide)

end FloatFormat

namespace FloatNumber

/-- How two numbers compare; NaN compares with nothing. -/
def order : FloatNumber → FloatNumber → Option Ordering
  | .nan, _ | _, .nan => none
  | .infinite negative, .infinite negative' =>
    some (if negative = negative' then .eq else if negative then .lt else .gt)
  | .infinite negative, .finite _ => some (if negative then .lt else .gt)
  | .finite _, .infinite negative => some (if negative then .gt else .lt)
  | .finite q, .finite r => some (compare q r)

end FloatNumber

/-! ## Truncation -/

/-- A rational without its fraction. -/
def truncated (q : ℚ) : ℤ := if 0 ≤ q then ⌊q⌋ else ⌈q⌉

theorem truncated_le_iff (q : ℚ) {n : ℤ} (hn : n < 0) : truncated q ≤ n ↔ q ≤ n := by
  unfold truncated
  split
  · rename_i hq
    have hfloor : 0 ≤ ⌊q⌋ := Int.floor_nonneg.2 hq
    have hcast : (n : ℚ) < 0 := by exact_mod_cast hn
    constructor
    · intro h
      omega
    · intro h
      linarith
  · exact Int.ceil_le

theorem le_truncated_iff (q : ℚ) {n : ℤ} (hn : 0 < n) : n ≤ truncated q ↔ (n : ℚ) ≤ q := by
  unfold truncated
  split
  · exact Int.le_floor
  · rename_i hq
    have hceil : ⌈q⌉ ≤ 0 := Int.ceil_le.2 (by push_cast; linarith)
    have hcast : (0 : ℚ) < n := by exact_mod_cast hn
    constructor
    · intro h
      omega
    · intro h
      linarith

/-! ## Large doubles are integers -/

/-- Below the negative of a power of two from `2 ^ 53` on, a double is an integer below it. -/
theorem le_sub_one_of_lt {q : ℚ} (h : FloatFormat.double.Holds (.finite q)) {k : ℕ} (hk : 53 ≤ k)
    (hlt : q < -2 ^ k) : q ≤ -2 ^ k - 1 := by
  obtain ⟨m, e, hm, -, -, rfl⟩ := h
  have hpow : (0 : ℚ) < 2 ^ e := zpow_pos two_pos _
  have hm' : -(2 : ℚ) ^ 53 < m := by exact_mod_cast (abs_lt.1 hm).1
  have he : 0 ≤ e := by
    by_contra hneg
    have hsmall : (2 : ℚ) ^ e ≤ 1 := zpow_le_one_of_nonpos₀ one_le_two (by omega)
    have hbig : (2 : ℚ) ^ 53 ≤ 2 ^ k := pow_le_pow_right₀ one_le_two hk
    have hmul : -(2 : ℚ) ^ 53 ≤ m * 2 ^ e := by
      rcases le_total (m : ℚ) 0 with hle | hle
      · nlinarith
      · have := mul_nonneg hle hpow.le
        have : (0 : ℚ) ≤ 2 ^ 53 := by positivity
        linarith
    linarith
  obtain ⟨n, rfl⟩ := Int.eq_ofNat_of_zero_le he
  have hcast : ((m * 2 ^ n : ℤ) : ℚ) < ((-2 ^ k : ℤ) : ℚ) := by
    push_cast
    simpa using hlt
  have hint : m * 2 ^ n ≤ -2 ^ k - 1 := by
    have := Int.cast_lt.1 hcast
    omega
  have hresult : ((m * 2 ^ n : ℤ) : ℚ) ≤ ((-2 ^ k - 1 : ℤ) : ℚ) := Int.cast_le.2 hint
  push_cast at hresult
  simpa using hresult

/-! ## Small integers are doubles -/

theorem roundHalfEven_intCast (n : ℤ) : roundHalfEven (n : ℚ) = n := by
  simp only [roundHalfEven, Int.floor_intCast, sub_self]
  rw [if_pos (by norm_num)]

theorem f64_natCast {n : ℕ} (hpos : 0 < n) (h : n ≤ 2 ^ 53) : f64 n = n := by
  have hq : (0 : ℚ) < n := by exact_mod_cast hpos
  have hlog : Int.log 2 (n : ℚ) = Nat.log 2 n := Int.log_natCast 2 n
  have hle : Nat.log 2 n ≤ 53 := by
    have := Nat.log_mono_right (b := 2) h
    rwa [Nat.log_pow (by norm_num)] at this
  rw [f64_eq hq, hlog]
  rcases Nat.eq_or_lt_of_le hle with heq | hlt
  · -- `n` is `2 ^ 53`
    have hge : 2 ^ 53 ≤ n := by
      rw [← heq]
      exact Nat.pow_log_le_self 2 hpos.ne'
    obtain rfl : n = 2 ^ 53 := le_antisymm h hge
    rw [heq]
    have hmax : max ((53 : ℕ) + 1 - 53 : ℤ) (-1074) = 1 := by norm_num
    have hhalf : ((2 ^ 53 : ℕ) : ℚ) / 2 ^ (1 : ℤ) = ((2 ^ 52 : ℤ) : ℚ) := by norm_num
    rw [hmax, hhalf, roundHalfEven_intCast]
    norm_num
  · obtain ⟨k, hk⟩ : ∃ k : ℕ, max ((Nat.log 2 n : ℤ) + 1 - 53) (-1074) = -(k : ℤ) := by
      refine ⟨52 - Nat.log 2 n, ?_⟩
      rw [max_eq_left (by omega)]
      omega
    have hmul : (n : ℚ) / 2 ^ (-(k : ℤ)) = ((n * 2 ^ k : ℤ) : ℚ) := by
      rw [zpow_neg, div_inv_eq_mul, zpow_natCast]
      push_cast
      rfl
    rw [hk, hmul, roundHalfEven_intCast, zpow_neg, zpow_natCast]
    push_cast
    rw [mul_assoc, mul_inv_cancel₀ (by positivity), mul_one]

theorem f64_two_pow (k : ℕ) : f64 (2 ^ k) = 2 ^ k := by
  rcases Nat.lt_or_ge k 53 with hlt | hge
  · have h := @f64_natCast (2 ^ k) (Nat.two_pow_pos k) (Nat.pow_le_pow_right Nat.two_pos hlt.le)
    push_cast at h
    exact h
  · have hlog : Int.log 2 ((2 : ℚ) ^ k) = k := by
      have h := @Int.log_zpow ℚ _ _ _ _ 2 Nat.one_lt_two (k : ℤ)
      rw [zpow_natCast] at h
      exact_mod_cast h
    have hmax : max ((k : ℤ) + 1 - 53) (-1074) = ((k - 52 : ℕ) : ℤ) := by
      rw [max_eq_left (by omega)]
      omega
    have hsplit : (2 : ℚ) ^ k = 2 ^ 52 * 2 ^ (k - 52) := by
      rw [← pow_add]
      congr 1
      omega
    have hhalf : (2 : ℚ) ^ k / 2 ^ (k - 52) = ((2 ^ 52 : ℤ) : ℚ) := by
      rw [hsplit, mul_div_cancel_right₀ _ (by positivity)]
      norm_num
    rw [f64_eq (by positivity), hlog, hmax, zpow_natCast, hhalf, roundHalfEven_intCast, hsplit]
    push_cast
    rfl

end SemantiST.Lib
