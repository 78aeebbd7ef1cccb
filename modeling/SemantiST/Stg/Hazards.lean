import SemantiST.Stg.Ir

/-!
# Exact and inexact violation predicates

When the conditions that are built for a division, a narrowing and a conversion of a floating-point number are
true, and when the instruction goes wrong.
-/

namespace SemantiST.Stg.Ir

open Lib

/-! ## Integer types -/

/-- The integer is a value of a type. -/
def Fits (width : ℕ) (signed : Bool) (n : ℤ) : Prop :=
  if signed then -2 ^ (width - 1) ≤ n ∧ n < 2 ^ (width - 1) else 0 ≤ n ∧ n < 2 ^ width

instance (width : ℕ) (signed : Bool) (n : ℤ) : Decidable (Fits width signed n) := by
  unfold Fits
  split <;> infer_instance

/-- Bits as a number of a type. -/
def valueOf {w : ℕ} (signed : Bool) (x : BitVec w) : ℤ := if signed then x.toInt else x.toNat

section Narrowing

variable {w v : ℕ} {env : Environment}

theorem two_pow_eq (h : 0 < v) : (2 : ℤ) ^ v = 2 * 2 ^ (v - 1) := by
  obtain ⟨k, rfl⟩ := Nat.exists_eq_succ_of_ne_zero h.ne'
  rw [Nat.succ_eq_add_one, Nat.add_sub_cancel, pow_succ, mul_comm]

theorem two_pow_le (h : v < w) : (2 : ℤ) ^ v ≤ 2 ^ (w - 1) := pow_le_pow_right₀ (by norm_num) (by omega)

/-- Bits that come back from their lower part. -/
theorem zeroExtend_trunc_eq_iff (x : BitVec w) : x = (x.setWidth v).setWidth w ↔ x.toNat < 2 ^ v := by
  rw [← BitVec.toNat_inj, BitVec.toNat_setWidth, BitVec.toNat_setWidth]
  have hlt : x.toNat % 2 ^ v < 2 ^ w := Nat.lt_of_le_of_lt (Nat.mod_le _ _) x.isLt
  rw [Nat.mod_eq_of_lt hlt, eq_comm]
  exact Nat.mod_eq_iff_lt (Nat.two_pow_pos v).ne'

theorem signExtend_trunc_eq_iff (x : BitVec w) (hv : 0 < v) (hlt : v < w) :
    x = (x.setWidth v).signExtend w ↔ -2 ^ (v - 1) ≤ x.toInt ∧ x.toInt < 2 ^ (v - 1) := by
  have hdvd : 2 ^ v ∣ 2 ^ w := pow_dvd_pow 2 hlt.le
  rw [← BitVec.toInt_inj, BitVec.toInt_signExtend_of_le hlt.le, BitVec.toInt_setWidth, BitVec.toInt_eq_toNat_bmod,
    ← Int.bmod_bmod_of_dvd hdvd, eq_comm, Int.bmod_eq_iff (Nat.two_pow_pos v)]
  have hpow := two_pow_eq hv
  simp only [sub_self, dvd_zero, and_true]
  push_cast
  omega

theorem toInt_eq_toNat_or (x : BitVec w) (hw : 0 < w) :
    (x.toInt = x.toNat ∧ (x.toNat : ℤ) < 2 ^ (w - 1)) ∨ (x.toInt = x.toNat - 2 ^ w ∧ 2 ^ (w - 1) ≤ (x.toNat : ℤ)) := by
  have hpow := two_pow_eq hw
  rw [BitVec.toInt_eq_toNat_cond]
  push_cast
  split
  · rename_i h
    zify at h
    exact .inl ⟨rfl, by omega⟩
  · rename_i h
    zify at h
    exact .inr ⟨rfl, by omega⟩

/-- **When bits come back** from their lower part, extended as the target type is: where they fit in it, and where
the source type is unsigned, the target type signed and the upper bits are ones. -/
theorem restored_iff (x : BitVec w) (hv : 0 < v) (hlt : v < w) (sourceSigned targetSigned : Bool) :
    x = (if targetSigned then (x.setWidth v).signExtend w else (x.setWidth v).setWidth w) ↔
      Fits v targetSigned (valueOf sourceSigned x) ∨
        sourceSigned = false ∧ targetSigned = true ∧ 2 ^ w - 2 ^ (v - 1) ≤ x.toNat := by
  have hpow := two_pow_eq (Nat.lt_of_le_of_lt (Nat.zero_le v) hlt)
  have hpowv := two_pow_eq hv
  have hle := two_pow_le hlt
  have hpos : (0 : ℤ) < 2 ^ (v - 1) := by positivity
  have hbound : (x.toNat : ℤ) < 2 ^ w := by exact_mod_cast x.isLt
  have hones : 2 ^ w - 2 ^ (v - 1) ≤ x.toNat ↔ (2 : ℤ) ^ w - 2 ^ (v - 1) ≤ x.toNat := by
    have hsub : 2 ^ (v - 1) ≤ 2 ^ w := Nat.pow_le_pow_right Nat.two_pos (by omega)
    zify [hsub]
  have hsmall : x.toNat < 2 ^ v ↔ (x.toNat : ℤ) < 2 ^ v := by
    zify
  have hcases := toInt_eq_toNat_or x (Nat.lt_of_le_of_lt (Nat.zero_le v) hlt)
  cases targetSigned with
  | false =>
    simp only [Bool.false_eq_true, if_false, zeroExtend_trunc_eq_iff, Fits, false_and, and_false, or_false, hsmall]
    cases sourceSigned with
    | false =>
      simp only [valueOf, Bool.false_eq_true, if_false]
      omega
    | true =>
      simp only [valueOf, if_true]
      omega
  | true =>
    simp only [if_true, signExtend_trunc_eq_iff x hv hlt, Fits, true_and, hones]
    cases sourceSigned with
    | false =>
      simp only [valueOf, Bool.false_eq_true, if_false, true_and]
      omega
    | true =>
      simp only [valueOf, if_true, Bool.true_eq_false, false_and, or_false]

/-! ### Constants -/

theorem parseSigned_intText {n value : ℤ} (h : parseSigned decDigit 10 i128Min i128Max (intText n) = some value) :
    value = n ∧ i128Min ≤ n ∧ n ≤ i128Max := by
  have hread (h : (if i128Min ≤ n ∧ n ≤ i128Max then some n else none) = some value) :
      value = n ∧ i128Min ≤ n ∧ n ≤ i128Max := by
    split at h
    · rename_i hbounds
      exact ⟨(Option.some.inj h).symm, hbounds⟩
    · cases h
  by_cases hn : n < 0
  · have hcast : -(n.natAbs : ℤ) = n := by omega
    rw [intText, if_pos hn, parseSigned] at h
    simp only [readNumber_decimal, Option.bind_some, if_true, hcast] at h
    exact hread h
  · have hcast : (n.natAbs : ℤ) = n := by omega
    have hdigit : ∀ c ∈ decimal n.natAbs, c.isDigit = true := fun c hc => isDigit_of_mem_decimal hc
    rw [intText, if_neg hn, parseSigned] at h
    · simp only [readNumber_decimal, Option.bind_some, Bool.false_eq_true, if_false, hcast] at h
      exact hread h
    · intro rest heq
      exact absurd (hdigit '-' (by rw [heq]; exact List.mem_cons_self)) (by decide)
    · intro rest heq
      exact absurd (hdigit '+' (by rw [heq]; exact List.mem_cons_self)) (by decide)

theorem parseUnsigned_intText {n : ℤ} {max value : ℕ} (hn : 0 ≤ n) (h : parseUnsigned max (intText n) = some value) :
    (value : ℤ) = n := by
  have htext : intText n = decimal n.natAbs := by rw [intText, if_neg (by omega)]
  rw [htext] at h
  rcases (parseUnsigned_eq_some h).2 with ⟨digits, heq, -⟩ | hread
  · have hdigit := @isDigit_of_mem_decimal n.natAbs '+' (heq ▸ List.mem_cons_self)
    exact absurd hdigit (by decide)
  · rw [readNumber_decimal] at hread
    have := Option.some.inj hread
    omega

/-- The check of a constant, where it gives an answer. -/
theorem integerConstantFits_iff {n : ℤ} {signed fits : Bool} (hv : 0 < v)
    (h : integerConstantFits (intText n) v signed = some fits) : fits = true ↔ Fits v signed n := by
  unfold integerConstantFits at h
  split at h
  · cases h
  rename_i hwidth
  split at h
  · rename_i hsigned
    obtain ⟨value, hparse, hvalue⟩ := Option.map_eq_some_iff.1 h
    obtain ⟨rfl, hmin, hmax⟩ := parseSigned_intText hparse
    subst hsigned
    split at hvalue
    · rename_i hmaximal
      subst hmaximal
      simp only [← hvalue, Fits, if_true, true_iff]
      simp only [i128Min, i128Max] at hmin hmax
      exact ⟨hmin, by omega⟩
    · simp only [← hvalue, Fits, if_true, decide_eq_true_eq]
      omega
  · rename_i hunsigned
    have hunsigned : signed = false := by simpa using hunsigned
    subst hunsigned
    simp only [Fits, Bool.false_eq_true, if_false]
    split at h
    · rename_i hminus
      cases h
      have hneg : n < 0 := by
        by_contra hn
        have hhead : (decimal n.natAbs).head? = some '-' := by
          have hminus := of_decide_eq_true hminus
          rwa [intText, if_neg hn] at hminus
        exact absurd (isDigit_of_mem_decimal (List.mem_of_head? hhead)) (by decide)
      constructor
      · intro h
        cases h
      · intro h
        omega
    · rename_i hplain
      have hn : 0 ≤ n := by
        by_contra hneg
        refine hplain (decide_eq_true ?_)
        rw [intText, if_pos (by omega)]
        rfl
      obtain ⟨value, hparse, hvalue⟩ := Option.map_eq_some_iff.1 h
      have hcast := parseUnsigned_intText hn hparse
      rw [← hvalue, decide_eq_true_eq, ← hcast]
      have hpos : 0 < 2 ^ v := Nat.two_pow_pos v
      split
      · rename_i hmaximal
        subst hmaximal
        norm_cast
        omega
      · norm_cast
        omega

/-! ### Narrowing -/

/-- **Narrowing.**  The run-time check of a conversion to a narrower type is true exactly where the value does not
fit, and agrees with the check of constants, unless the source type is unsigned, the target type signed and the upper
bits of the value, from the sign bit of the target on, are ones. -/
theorem narrowing_exact_iff (hv : 0 < v) (hlt : v < w) (sourceSigned targetSigned : Bool) (source : IntValue w)
    (env : Environment) (sourceBitWidth targetBitWidth : Option ℕ) (signed recordedSigned : Option Bool)
    (sourceConstant : Option Text) :
    (∃ condition, hazardCondition (.trunc v source)
        { hazard := some .dangerousConversion
          violationPredicate := some
            (.narrowing sourceBitWidth targetBitWidth signed recordedSigned (some targetSigned) sourceConstant) } =
              some condition ∧
      (condition.Holds env ↔ ¬Fits v targetSigned (valueOf sourceSigned (source.eval env))) ∧
      ∀ fits, integerConstantFits (intText (valueOf sourceSigned (source.eval env))) v targetSigned = some fits →
        (condition.Holds env ↔ fits = false)) ↔
    ¬(sourceSigned = false ∧ targetSigned = true ∧ 2 ^ w - 2 ^ (v - 1) ≤ (source.eval env).toNat) := by
  have hcondition (condition : IntValue 1) (h : hazardCondition (.trunc v source)
        { hazard := some .dangerousConversion
          violationPredicate := some
            (.narrowing sourceBitWidth targetBitWidth signed recordedSigned (some targetSigned) sourceConstant) } =
              some condition) : condition.Holds env ↔
      ¬(Fits v targetSigned (valueOf sourceSigned (source.eval env)) ∨
        sourceSigned = false ∧ targetSigned = true ∧ 2 ^ w - 2 ^ (v - 1) ≤ (source.eval env).toNat) := by
    rw [← restored_iff (source.eval env) hv hlt sourceSigned targetSigned]
    cases h
    rw [narrowingCondition, holds_compare]
    cases targetSigned <;> exact decide_eq_true_iff
  constructor
  · rintro ⟨condition, hbuilt, hexact, -⟩ hbad
    have hnot : ¬condition.Holds env := fun h => (hcondition condition hbuilt).1 h (.inr hbad)
    rw [hexact, not_not] at hnot
    obtain ⟨rfl, rfl, hones⟩ := hbad
    -- a value whose upper bits are ones is too large
    have hone : (2 : ℤ) ^ w - 2 ^ (v - 1) ≤ (source.eval env).toNat := by
      have hsub : 2 ^ (v - 1) ≤ 2 ^ w := Nat.pow_le_pow_right Nat.two_pos (by omega)
      zify [hsub] at hones
      exact hones
    have hle := two_pow_le hlt
    have hpow := two_pow_eq (Nat.lt_of_le_of_lt (Nat.zero_le v) hlt)
    have hpowv := two_pow_eq hv
    have hpos : (0 : ℤ) < 2 ^ (v - 1) := by positivity
    simp only [Fits, valueOf, if_true, Bool.false_eq_true, if_false] at hnot
    omega
  · intro hgood
    refine ⟨_, rfl, ?_, fun fits hfits => ?_⟩
    · rw [hcondition _ rfl]
      exact not_congr (or_iff_left hgood)
    · rw [hcondition _ rfl, or_iff_left hgood, ← integerConstantFits_iff hv hfits, Bool.not_eq_true]

end Narrowing

/-- An environment in which every integer is read as a number, and every floating-point number as zero. -/
def reading (n : ℕ) : Environment where
  ints w _ := BitVec.ofNat w n
  floats f _ := ⟨.finite 0, 0, 0, by cases f <;> decide, by cases f <;> decide, by cases f <;> decide, by simp⟩
  nulls _ := false

theorem narrowing_exact_iff_uint : ∃ condition, hazardCondition (.trunc 8 (.read 0 : IntValue 16))
    { hazard := some .dangerousConversion
      violationPredicate := some (.narrowing (some 16) (some 8) (some false) (some false) (some true) none) } =
        some condition ∧
    (condition.Holds (reading 300) ↔ ¬Fits 8 true (valueOf false (300#16))) ∧
    ∀ fits, integerConstantFits (intText (valueOf false (300#16))) 8 true = some fits →
      (condition.Holds (reading 300) ↔ fits = false) :=
  (narrowing_exact_iff (by decide) (by decide) false true (.read 0) (reading 300) _ _ _ _ _).2 (by
    rintro ⟨-, -, h⟩
    exact absurd h (by decide))

/-- The bits of the largest unsigned number survive the way to a signed type and back. -/
theorem narrowing_not_exact : ∃ condition, hazardCondition (.trunc 8 (.read 0 : IntValue 16))
    { hazard := some .dangerousConversion
      violationPredicate := some (.narrowing (some 16) (some 8) (some false) (some false) (some true) none) } =
        some condition ∧
    ¬condition.Holds (reading 65535) ∧ ¬Fits 8 true (valueOf false (65535#16)) ∧
    integerConstantFits (intText (valueOf false (65535#16))) 8 true = some false := by
  refine ⟨_, rfl, ?_, by decide +kernel, by decide +kernel⟩
  rw [narrowingCondition, holds_compare]
  decide +kernel

/-! ## Division -/

section Division

variable {w : ℕ} {env : Environment}

/-- The instruction's behaviour on its operands is undefined: the divisor is zero, or the quotient is too large. -/
def DivisionOperator.Undefined (operator : DivisionOperator) (dividend divisor : BitVec w) : Prop :=
  divisor = 0 ∨ (operator = .sdiv ∨ operator = .srem) ∧ dividend = BitVec.intMin w ∧ divisor = -1#w

theorem eval_minimum (w : ℕ) (env : Environment) : (minimum w).eval env = BitVec.intMin w := by
  apply BitVec.eq_of_toNat_eq
  rw [minimum, IntValue.eval, BitVec.toNat_ofNat, BitVec.toNat_intMin]

theorem holds_divisionCondition (hw : 0 < w) (hle : w ≤ 64) (operator : DivisionOperator)
    (dividend divisor : IntValue w) : (divisionCondition operator dividend divisor).Holds env ↔
      divisor.eval env = 0 ∨
        operator = .sdiv ∧ dividend.eval env = BitVec.intMin w ∧ divisor.eval env = -1#w := by
  have heq (x y : IntValue w) : (IntValue.compare .eq x y).Holds env ↔ x.eval env = y.eval env := by
    rw [holds_compare, IntPredicate.holds, decide_eq_true_eq]
  unfold divisionCondition
  dsimp only
  split
  · rename_i hother
    rw [heq]
    simp only [hother, false_and, or_false]
    rfl
  · rename_i hsdiv
    rw [if_neg (by omega), holds_or, holds_and, heq, heq, heq, eval_minimum, not_not.1 hsdiv, and_comm,
      BitVec.neg_one_eq_allOnes]
    simp only [true_and]
    rfl

/-- **Division.**  The condition of a division or modulo hazard is true exactly where the behaviour of the instruction
is undefined, unless the instruction is a signed remainder of the least value by minus one. -/
theorem division_exact_iff (hw : 0 < w) (hle : w ≤ 64) (operator : DivisionOperator) (dividend divisor : IntValue w)
    (env : Environment) (hazard : Hazard) (hhazard : hazard = .division ∨ hazard = .modulo)
    (predicate : Option ViolationPredicate) :
    (∃ condition, hazardCondition (.divide operator dividend divisor)
        { hazard := some hazard, violationPredicate := predicate } = some condition ∧
      (condition.Holds env ↔ operator.Undefined (dividend.eval env) (divisor.eval env))) ↔
    ¬(operator = .srem ∧ dividend.eval env = BitVec.intMin w ∧ divisor.eval env = -1#w) := by
  have hbuilt : hazardCondition (.divide operator dividend divisor)
      { hazard := some hazard, violationPredicate := predicate } = some (divisionCondition operator dividend divisor) := by
    rcases hhazard with rfl | rfl <;> rfl
  have hnonzero : -1#w ≠ 0 := by
    rw [BitVec.neg_one_eq_allOnes]
    intro h
    have hnat := congrArg BitVec.toNat h
    have hlarge : 2 ≤ 2 ^ w := Nat.le_self_pow hw.ne' 2
    rw [BitVec.toNat_allOnes] at hnat
    change 2 ^ w - 1 = 0 at hnat
    omega
  rw [hbuilt]
  simp only [Option.some.injEq, exists_eq_left', holds_divisionCondition hw hle, DivisionOperator.Undefined]
  constructor
  · rintro hiff ⟨rfl, hmin, hone⟩
    rcases hiff.2 (.inr ⟨.inr rfl, hmin, hone⟩) with hzero | ⟨hsdiv, -⟩
    · exact hnonzero (hone.symm.trans hzero)
    · cases hsdiv
  · intro hgood
    constructor
    · rintro (hzero | ⟨rfl, hboth⟩)
      · exact .inl hzero
      · exact .inr ⟨.inl rfl, hboth⟩
    · rintro (hzero | ⟨rfl | rfl, hboth⟩)
      · exact .inl hzero
      · exact .inr ⟨rfl, hboth⟩
      · exact absurd ⟨rfl, hboth⟩ hgood

theorem division_exact_iff_remainder : ∃ condition,
    hazardCondition (.divide .srem (.const 7#32) (.read 0)) { hazard := some .modulo, violationPredicate := none } =
      some condition ∧ (condition.Holds (reading 0) ↔ DivisionOperator.srem.Undefined (7#32) (0#32)) :=
  (division_exact_iff (by decide) (by decide) .srem (.const 7#32) (.read 0) (reading 0) .modulo (.inr rfl) none).2 (by
    rintro ⟨-, h, -⟩
    exact absurd h (by decide))

/-- The remainder of the least value by minus one. -/
theorem remainder_not_covered : ∃ condition,
    hazardCondition (.divide .srem (.const (BitVec.intMin 32)) (.const (-1#32)))
      { hazard := some .modulo, violationPredicate := none } = some condition ∧
    ¬condition.Holds (reading 0) ∧ DivisionOperator.srem.Undefined (BitVec.intMin 32) (-1#32) := by
  refine ⟨_, rfl, ?_, .inr ⟨.inr rfl, rfl, rfl⟩⟩
  rw [holds_divisionCondition (by decide) (by decide)]
  decide

end Division

/-! ## Conversion of floating-point numbers -/

section Conversion

variable {f : FloatFormat} {env : Environment}

/-- The number without its fraction is a value of a type. -/
def Converts (width : ℕ) (signed : Bool) : FloatNumber → Prop
  | .finite q => Fits width signed (truncated q)
  | _ => False

theorem eval_widened : {f : FloatFormat} → (source : FloatValue f) → (widened source).eval env = source.eval env
  | .single, _ => rfl
  | .double, _ => rfl

theorem holds_oge (value : FloatValue f) (q r : ℚ) (h : value.eval env = .finite q) :
    (IntValue.floatCompare .oge value (.const (.finite r))).Holds env ↔ r ≤ q := by
  rw [holds_floatCompare, h]
  simp only [FloatPredicate.holds, FloatNumber.order, FloatValue.eval, Option.some.injEq, Bool.or_eq_true,
    decide_eq_true_eq, compare_gt_iff_gt, compare_eq_iff_eq]
  rw [le_iff_lt_or_eq, eq_comm]

theorem holds_below (value : FloatValue f) (q r : ℚ) (h : value.eval env = .finite q) (exact : Bool) :
    (IntValue.floatCompare (if exact then .ole else .olt) value (.const (.finite r))).Holds env ↔
      if exact then q ≤ r else q < r := by
  rw [holds_floatCompare, h]
  cases exact
  · simp only [FloatPredicate.holds, FloatNumber.order, FloatValue.eval, Option.some.injEq, Bool.false_eq_true, if_false,
      decide_eq_true_eq, compare_lt_iff_lt]
  · simp only [FloatPredicate.holds, FloatNumber.order, FloatValue.eval, Option.some.injEq, if_true, Bool.or_eq_true,
      decide_eq_true_eq, compare_lt_iff_lt, compare_eq_iff_eq]
    exact le_iff_lt_or_eq.symm

/-- Whether a double is below the range of a signed type, for its rounded limit. -/
theorem below_signed_iff {q : ℚ} (hq : FloatFormat.double.Holds (.finite q)) {limit : ℕ} :
    (if decide (limit < 53) then q ≤ -f64 (2 ^ limit + if decide (limit < 53) then 1 else 0)
      else q < -f64 (2 ^ limit + if decide (limit < 53) then 1 else 0)) ↔ q ≤ -2 ^ limit - 1 := by
  by_cases hlimit : limit < 53
  · simp only [hlimit, decide_true, if_true]
    have hle : 2 ^ limit + 1 ≤ 2 ^ 53 := by
      have hpow : 2 ^ limit ≤ 2 ^ 52 := Nat.pow_le_pow_right Nat.two_pos (by omega)
      omega
    have hexact := @f64_natCast (2 ^ limit + 1) (Nat.succ_pos _) hle
    push_cast at hexact
    rw [hexact]
    constructor <;> intro h <;> linarith
  · simp only [hlimit, decide_false, Bool.false_eq_true, if_false, add_zero, f64_two_pow]
    constructor
    · exact le_sub_one_of_lt hq (by omega)
    · intro h
      linarith

/-- **Conversion to an integer.**  For every width up to 64 and every number of single or double precision, the
condition is true exactly for NaN, the infinities, and the numbers whose integral part is no value of the type. -/
theorem float_to_integer_exact {width : ℕ} (hpos : 0 < width) (hle : width ≤ 64) (signed : Bool) (x : f.Number)
    (source : FloatValue f) (env : Environment) (hx : source.eval env = x) (sourceBitWidth : Option ℕ) :
    hazardCondition (.floatToInt signed width source)
        { hazard := some .dangerousConversion
          violationPredicate := some (.floatToInteger sourceBitWidth (some width) (some signed)) } =
      some (floatToIntegerCondition source width signed) ∧
    ((floatToIntegerCondition source width signed).Holds env ↔ ¬Converts width signed x) := by
  refine ⟨?_, ?_⟩
  · simp only [hazardCondition]
    rw [if_neg (by simp; omega)]
  have hdouble := FloatFormat.holds_double x.2
  have hvalue : (widened source).eval env = x := (eval_widened source).trans hx
  obtain ⟨x, hholds⟩ := x
  dsimp only at hdouble hvalue ⊢
  rw [floatToIntegerCondition]
  simp only [holds_or]
  cases x with
  | nan =>
    simp only [Converts, not_false_eq_true, iff_true]
    right
    rw [holds_floatCompare, hvalue]
    rfl
  | infinite negative =>
    simp only [Converts, not_false_eq_true, iff_true]
    left
    cases negative with
    | false =>
      right
      rw [holds_floatCompare, hvalue]
      rfl
    | true =>
      left
      have hboth (exact : Bool) (r : ℚ) : FloatPredicate.holds (if exact then .ole else .olt)
          ((FloatNumber.infinite true).order (.finite r)) = true := by cases exact <;> rfl
      rw [holds_floatCompare, hvalue]
      exact hboth _ _
  | finite q =>
    have hordered : ¬(IntValue.floatCompare .uno (widened source) (widened source)).Holds env := by
      rw [holds_floatCompare, hvalue]
      simp [FloatPredicate.holds, FloatNumber.order]
    rw [holds_below _ _ _ hvalue, holds_oge _ _ _ hvalue, or_iff_left hordered]
    cases signed with
    | false =>
      have hbelow := truncated_le_iff q (show (-1 : ℤ) < 0 by decide)
      have habove := le_truncated_iff q (show (0 : ℤ) < 2 ^ width by positivity)
      push_cast at hbelow habove
      simp only [Bool.not_false, Bool.true_or, if_true, Bool.false_eq_true, if_false, Converts, Fits, ← hbelow, ← habove]
      omega
    | true =>
      have hpow : (0 : ℤ) < 2 ^ (width - 1) := by positivity
      have hbelow := truncated_le_iff q (show -2 ^ (width - 1) - 1 < (0 : ℤ) by omega)
      have habove := le_truncated_iff q hpow
      push_cast at hbelow habove
      simp only [Bool.not_true, Bool.false_or, if_true, below_signed_iff hdouble, Converts, Fits, ← hbelow, ← habove]
      omega

/-- Half below the least value of a byte. -/
theorem float_to_integer_exact_half :
    (floatToIntegerCondition (.const (.finite (-257 / 2)) : FloatValue .single) 8 true).Holds (reading 0) ↔
      ¬Converts 8 true (.finite (-257 / 2)) :=
  (float_to_integer_exact (by decide) (by decide) true
    ⟨.finite (-257 / 2), -257, -1, by decide, by decide, by decide, by norm_num⟩ _ (reading 0) rfl none).2

end Conversion

end SemantiST.Stg.Ir
