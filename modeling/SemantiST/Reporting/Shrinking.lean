import Mathlib.Data.Bool.AllAny
import SemantiST.Reporting.Candidates

/-!
# Whether shrinking ends

A record whose value can be read as a number or as bytes always has another value to try, and `"0"` leads to
`"1"` and back: `_shrink_values` ends for every oracle exactly where it meets no such record
(`shrinkValues_ends_iff`).
-/

namespace SemantiST.Reporting

open Lib

/-! ## Kinds of types -/

inductive Kind where
  | bool | integer (lo hi : ℤ) | float | text | bytes | other

def kindOf (ty : Text) : Kind :=
  if ty = "BOOL".toList then .bool
  else
    match boundsOf ty with
    | some (lo, hi) => .integer lo hi
    | none =>
      if ty ∈ floatTypes then .float
      else if ty ∈ stringTypes then .text
      else if ty ∈ byteTypes then .bytes
      else .other

section

variable (u : CharacterData)

/-- `original / 2` raises an `OverflowError`. -/
def TooLarge (n : ℤ) : Prop := nearestDouble ((n.natAbs : ℚ) / 2) = none

/-- A record that always has another value to try. -/
def Restless (record : SeedRecord) : Prop :=
  match kindOf (u.upperText record.ty) with
  | .bool => True
  | .integer _ _ => ∃ n, u.int 0 record.value = some n ∧ ¬TooLarge n
  | .float => (u.float record.value).isSome
  | .bytes => startsHex record.value ∧ (record.value.drop 2).length % 2 = 0 ∧ (fromHex (record.value.drop 2)).isSome
  | .text | .other => False

/-- A record whose values cannot be asked for. -/
def Overflows (record : SeedRecord) : Prop :=
  match kindOf (u.upperText record.ty) with
  | .integer _ _ => ∃ n, u.int 0 record.value = some n ∧ TooLarge n
  | _ => False

theorem valueCandidates_eq (record : SeedRecord) : valueCandidates u record =
    match kindOf (u.upperText record.ty) with
    | .bool => .values (["0".toList, "1".toList].filter fun value => value ≠ record.value)
    | .integer lo hi => integerCandidates u record.value (lo, hi)
    | .float => floatCandidates u record.value
    | .text => .values (stringCandidates record.value)
    | .bytes =>
      .values (if startsHex record.value then hexByteCandidates record.value else stringCandidates record.value)
    | .other => .values [] := by
  unfold valueCandidates kindOf
  dsimp only
  by_cases hbool : u.upperText record.ty = "BOOL".toList
  · rw [if_pos hbool, if_pos hbool]
  · rw [if_neg hbool, if_neg hbool]
    cases boundsOf (u.upperText record.ty) with
    | some bounds => rfl
    | none =>
      dsimp only
      split
      · rfl
      · split
        · rfl
        · split
          · rfl
          · rfl

end

theorem integer_bounds {ty : Text} {lo hi : ℤ} (h : kindOf ty = .integer lo hi) : lo ≤ 0 ∧ 1 ≤ hi := by
  have hall : ∀ entry ∈ integerBounds, entry.2.1 ≤ 0 ∧ 1 ≤ entry.2.2 := by decide
  unfold kindOf at h
  split at h
  · cases h
  · split at h
    · rename_i hbounds
      cases h
      obtain ⟨entry, hentry, heq⟩ := Option.map_eq_some_iff.1 hbounds
      have := hall entry (List.mem_of_find?_eq_some hentry)
      rwa [heq] at this
    · split at h
      · cases h
      · split at h
        · cases h
        · split at h
          · cases h
          · cases h

/-! ## Halving integers -/

section Halves

variable {n m : ℤ}

theorem f64_lt {q : ℚ} (h : leastDouble ≤ q) : f64 q < 2 * q := by
  have hpos : (0 : ℚ) < 2 ^ max (Int.log 2 q + 1 - 53) (-1074) := zpow_pos two_pos _
  have hulp := ulp_le h
  rw [f64_eq (leastDouble_pos.trans_le h)]
  calc _ ≤ (q / 2 ^ max (Int.log 2 q + 1 - 53) (-1074) + 1 / 2) * 2 ^ max (Int.log 2 q + 1 - 53) (-1074) :=
        mul_le_mul_of_nonneg_right (roundHalfEven_le _) hpos.le
    _ = q + 1 / 2 * 2 ^ max (Int.log 2 q + 1 - 53) (-1074) := by
        rw [add_mul, div_mul_cancel₀ _ hpos.ne']
    _ < 2 * q := by linarith [leastDouble_pos.trans_le h]

theorem leastDouble_le_half : leastDouble ≤ 1 / 2 := by
  have := leastDouble_le_zpow (k := -1) (by norm_num)
  rwa [zpow_neg_one, ← one_div] at this

theorem nearestDouble_eq_some {q d : ℚ} : nearestDouble q = some d ↔ f64 q = d ∧ d < 2 ^ 1024 := by
  unfold nearestDouble
  change (if f64 q < 2 ^ 1024 then some (f64 q) else none) = some d ↔ _
  split
  · rename_i hlt
    rw [Option.some.injEq]
    exact ⟨fun h => ⟨h, h ▸ hlt⟩, fun h => h.1⟩
  · rename_i hlt
    exact ⟨fun h => (nomatch h), fun h => absurd (h.1 ▸ h.2) hlt⟩

theorem half_natAbs_le (n : ℤ) : f64 ((n.natAbs : ℚ) / 2) ≤ n.natAbs := by
  rcases Nat.eq_zero_or_pos n.natAbs with hzero | hpos
  · rw [hzero, Nat.cast_zero, zero_div, f64_zero]
  · have hone : (1 : ℚ) ≤ n.natAbs := by exact_mod_cast hpos
    have := f64_le (leastDouble_le_half.trans (by linarith : 1 / 2 ≤ (n.natAbs : ℚ) / 2))
    linarith

theorem f64_half_nonneg (n : ℤ) : 0 ≤ f64 ((n.natAbs : ℚ) / 2) := by
  rcases Nat.eq_zero_or_pos n.natAbs with hzero | hpos
  · rw [hzero, Nat.cast_zero, zero_div, f64_zero]
  · have hone : (1 : ℚ) ≤ n.natAbs := by exact_mod_cast hpos
    have hle := leastDouble_le_f64 (leastDouble_le_half.trans (by linarith : 1 / 2 ≤ (n.natAbs : ℚ) / 2))
    exact leastDouble_pos.le.trans hle

/-- The size of a truncated half. -/
theorem natAbs_truncatedHalf (h : truncatedHalf n = some m) : (m.natAbs : ℚ) ≤ f64 ((n.natAbs : ℚ) / 2) := by
  obtain ⟨d, hd, hm⟩ := Option.map_eq_some_iff.1 h
  obtain ⟨rfl, -⟩ := nearestDouble_eq_some.1 hd
  have hfloor : 0 ≤ ⌊f64 ((n.natAbs : ℚ) / 2)⌋ := Int.floor_nonneg.2 (f64_half_nonneg n)
  have hnat : (m.natAbs : ℤ) = ⌊f64 ((n.natAbs : ℚ) / 2)⌋ := by
    split at hm
    · rw [← hm, Int.natAbs_neg]
      exact Int.natAbs_of_nonneg hfloor
    · rw [← hm]
      exact Int.natAbs_of_nonneg hfloor
  calc (m.natAbs : ℚ) = ((⌊f64 ((n.natAbs : ℚ) / 2)⌋ : ℤ) : ℚ) := by rw [← hnat]; rfl
    _ ≤ _ := Int.floor_le _

/-- **Halving makes an integer smaller.** -/
theorem natAbs_truncatedHalf_lt (h : truncatedHalf n = some m) (hn : n ≠ 0) : m.natAbs < n.natAbs := by
  have hpos : (1 : ℚ) ≤ n.natAbs := by exact_mod_cast Int.natAbs_pos.2 hn
  have hlt := f64_lt (leastDouble_le_half.trans (by linarith : 1 / 2 ≤ (n.natAbs : ℚ) / 2))
  have hle := natAbs_truncatedHalf h
  have : (m.natAbs : ℚ) < n.natAbs := by linarith
  exact_mod_cast this

theorem not_tooLarge_iff : ¬TooLarge n ↔ f64 ((n.natAbs : ℚ) / 2) < 2 ^ 1024 := by
  unfold TooLarge nearestDouble
  change ¬(if f64 ((n.natAbs : ℚ) / 2) < 2 ^ 1024 then some _ else none) = none ↔ _
  split
  · rename_i hlt
    exact iff_of_true (Option.some_ne_none _) hlt
  · rename_i hlt
    exact iff_of_false (not_not.2 rfl) hlt

theorem not_tooLarge_of_le (h : (n.natAbs : ℚ) < 2 ^ 1024) : ¬TooLarge n :=
  not_tooLarge_iff.2 ((half_natAbs_le n).trans_lt h)

/-- One division decides whether all go through. -/
theorem integerHalves_ne_none (fuel : ℕ) (h : ¬TooLarge n) : integerHalves fuel n ≠ none := by
  induction fuel generalizing n with
  | zero => exact Option.some_ne_none _
  | succ fuel ih =>
    unfold integerHalves
    split
    · exact Option.some_ne_none _
    · obtain ⟨m, hm⟩ : ∃ m, truncatedHalf n = some m := by
        obtain ⟨d, hd⟩ := Option.ne_none_iff_exists'.1 h
        exact ⟨_, by rw [truncatedHalf, hd, Option.map_some]⟩
      have hlt : (m.natAbs : ℚ) < 2 ^ 1024 := (natAbs_truncatedHalf hm).trans_lt (not_tooLarge_iff.1 h)
      obtain ⟨rest, hrest⟩ := Option.ne_none_iff_exists'.1 (ih (not_tooLarge_of_le hlt))
      rw [hm, Option.bind_eq_bind, Option.bind_some, hrest]
      exact Option.some_ne_none _

theorem integerHalves_eq_none (h : TooLarge n) : integerHalves n.natAbs n = none := by
  have hlarge : ¬(n.natAbs : ℚ) < 2 ^ 1024 := fun hlt => not_tooLarge_of_le hlt h
  have hsmall : n ∉ [0, 1, -1] := by
    intro hmem
    have hle : n.natAbs ≤ 1 := by
      simp only [List.mem_cons, List.not_mem_nil, or_false] at hmem
      omega
    have hone : (n.natAbs : ℚ) ≤ 1 := by exact_mod_cast hle
    exact hlarge (hone.trans_lt (one_lt_pow₀ one_lt_two (by decide)))
  have hpos : n.natAbs ≠ 0 := fun hzero => hsmall (by rw [Int.natAbs_eq_zero.1 hzero]; exact List.mem_cons_self)
  obtain ⟨fuel, hfuel⟩ := Nat.exists_eq_succ_of_ne_zero hpos
  rw [hfuel, integerHalves, if_neg hsmall, truncatedHalf, h]
  rfl

/-- More rounds change nothing: the loop is left before. -/
theorem integerHalves_fuel {fuel : ℕ} (h : n.natAbs ≤ fuel) : integerHalves (fuel + 1) n = integerHalves fuel n := by
  induction fuel generalizing n with
  | zero =>
    obtain rfl := Int.natAbs_eq_zero.1 (Nat.le_zero.1 h)
    rfl
  | succ fuel ih =>
    rw [integerHalves, integerHalves]
    split
    · rfl
    · rename_i hnot
      have hn : n ≠ 0 := fun hzero => hnot (by rw [hzero]; exact List.mem_cons_self)
      cases hm : truncatedHalf n with
      | none => rfl
      | some m =>
        have hlt := natAbs_truncatedHalf_lt hm hn
        rw [Option.bind_eq_bind, Option.bind_some, ih (by omega)]
        rfl

/-- **The loop fails exactly where its first division does**, for as many rounds as it may need. -/
theorem integerHalves_eq_none_iff {fuel : ℕ} (h : n.natAbs ≤ fuel) : integerHalves fuel n = none ↔ TooLarge n := by
  have henough : integerHalves fuel n = integerHalves n.natAbs n := by
    induction fuel, h using Nat.le_induction with
    | base => rfl
    | succ fuel hle ih => rw [integerHalves_fuel hle, ih]
  rw [henough]
  exact ⟨not_imp_not.1 (integerHalves_ne_none _), integerHalves_eq_none⟩

end Halves

/-! ## What is tried -/

section Tried

variable {u : CharacterData} {record : SeedRecord} {value : Text}

def SeedRecord.withValue (record : SeedRecord) (value : Text) : SeedRecord := { record with value }

theorem orderedUnique_cons (value : Text) (values : List Text) :
    ∃ rest, orderedUnique (value :: values) = value :: rest := ⟨_, List.eraseDups_cons⟩

theorem valueCandidates_of_overflows (h : Overflows u record) : valueCandidates u record = .raised := by
  rw [valueCandidates_eq]
  unfold Overflows at h
  split at h
  · rename_i lo hi hkind
    obtain ⟨n, hn, hlarge⟩ := h
    rw [hkind]
    dsimp only
    rw [integerCandidates, hn]
    dsimp only
    rw [(integerHalves_eq_none_iff (le_refl _)).2 hlarge]
  · exact h.elim

theorem int_digit {text : Text} {n : ℤ} (hascii : ∀ c ∈ text, 0x21 ≤ c.toNat ∧ c.toNat ≤ 0x7e)
    (h : readSign (intMagnitude 0) text = some n) : u.int 0 text = some n := by
  rw [int_ascii (fun c hc => by have := hascii c hc; omega)
    (trimmed_of_forall fun c hc => isSpace_graphic (hascii c hc))]
  exact h

theorem int_zero : u.int 0 "0".toList = some 0 := int_digit (by simp) rfl

theorem int_one : u.int 0 "1".toList = some 1 := int_digit (by simp) rfl

theorem not_tooLarge_zero : ¬TooLarge 0 := not_tooLarge_of_le (by simp)

theorem not_tooLarge_one : ¬TooLarge 1 :=
  not_tooLarge_of_le (by simpa using one_lt_pow₀ (one_lt_two : (1 : ℚ) < 2) (by decide : 1024 ≠ 0))

theorem integerCandidates_of_int {lo hi n : ℤ} (hlo : lo ≤ 0) (hhi : 1 ≤ hi) (hn : u.int 0 value = some n)
    (hlarge : ¬TooLarge n) : ∃ first rest, integerCandidates u value (lo, hi) = .values (first :: rest) ∧
      (first = "0".toList ∨ first = "1".toList) := by
  obtain ⟨halves, hhalves⟩ := Option.ne_none_iff_exists'.1 (mt (integerHalves_eq_none_iff (le_refl _)).1 hlarge)
  rw [integerCandidates, hn]
  dsimp only
  rw [hhalves]
  dsimp only
  by_cases hzero : n = 0
  · subst hzero
    have hfilter (l : List ℤ) : ([0, 1, -1] ++ l).filter (fun item => lo ≤ item ∧ item ≤ hi ∧ item ≠ 0) =
        1 :: (-1 :: l).filter fun item => lo ≤ item ∧ item ≤ hi ∧ item ≠ 0 := by
      rw [List.cons_append, List.filter_cons_of_neg (by simp), List.cons_append,
        List.filter_cons_of_pos (by simp; omega)]
      rfl
    rw [List.append_assoc, List.append_assoc, hfilter, List.map_cons]
    obtain ⟨rest, hrest⟩ := orderedUnique_cons (intText 1) (List.map intText _)
    exact ⟨_, rest, congrArg _ hrest, .inr rfl⟩
  · have hfilter (l : List ℤ) : ([0, 1, -1] ++ l).filter (fun item => lo ≤ item ∧ item ≤ hi ∧ item ≠ n) =
        0 :: (1 :: -1 :: l).filter fun item => lo ≤ item ∧ item ≤ hi ∧ item ≠ n := by
      rw [List.cons_append, List.filter_cons_of_pos (by simp [Ne.symm hzero]; omega)]
      rfl
    rw [List.append_assoc, List.append_assoc, hfilter, List.map_cons]
    obtain ⟨rest, hrest⟩ := orderedUnique_cons (intText 0) (List.map intText _)
    exact ⟨_, rest, congrArg _ hrest, .inl rfl⟩

theorem float_zero : u.float "0.0".toList = some (.finite 0) := by
  rw [float_ascii (by simp)]
  decide +kernel

theorem float_one : u.float "1.0".toList = some (.finite 1) := by
  rw [float_ascii (by simp)]
  decide +kernel

theorem floatCandidates_of_float (h : (u.float value).isSome) : floatCandidates u value = .endless ∨
    ∃ first rest, floatCandidates u value = .values (first :: rest) ∧
      (first = "0.0".toList ∨ first = "1.0".toList) := by
  have hzero : formatFloat 0 = "0.0".toList := by decide +kernel
  have hone : formatFloat 1 = "1.0".toList := by decide +kernel
  obtain ⟨x, hx⟩ := Option.isSome_iff_exists.1 h
  rw [floatCandidates, hx]
  cases x with
  | infinite negative => exact .inl rfl
  | nan =>
    obtain ⟨rest, hrest⟩ := orderedUnique_cons (formatFloat 0) (List.map formatFloat [1, -1])
    exact .inr ⟨_, rest, congrArg _ hrest, .inl hzero⟩
  | finite q =>
    refine .inr ?_
    dsimp only
    by_cases hq : q = 0
    · subst hq
      obtain ⟨rest, hrest⟩ := orderedUnique_cons (formatFloat 1) (List.map formatFloat
        ((-1 :: floatHalves (halvings 0) 0).filter fun item => item ≠ 0))
      exact ⟨_, rest, congrArg _ hrest, .inr hone⟩
    · obtain ⟨rest, hrest⟩ := orderedUnique_cons (formatFloat 0) (List.map formatFloat
        ((1 :: -1 :: floatHalves (halvings q) q).filter fun item => item ≠ q))
      refine ⟨_, rest, ?_, .inl hzero⟩
      rw [List.cons_append, List.filter_cons_of_pos (by simp [Ne.symm hq]), List.map_cons]
      exact congrArg _ hrest

theorem hexByteCandidates_of_hex (heven : (value.drop 2).length % 2 = 0)
    (hhex : (fromHex (value.drop 2)).isSome) : ∃ first rest, hexByteCandidates value = first :: rest ∧
      (first = "0x".toList ∨ first = "0x00".toList) := by
  obtain ⟨data, hdata⟩ := Option.isSome_iff_exists.1 hhex
  rw [hexByteCandidates]
  dsimp only
  rw [if_neg (not_not.2 heven), hdata]
  dsimp only
  rw [List.append_assoc, List.cons_append]
  cases data with
  | nil =>
    rw [List.filter_cons_of_neg (by simp), List.cons_append, List.filter_cons_of_pos (by simp), List.map_cons]
    obtain ⟨rest, hrest⟩ := orderedUnique_cons ("0x".toList ++ hexOf [0]) (List.map _ _)
    exact ⟨_, rest, hrest, .inr rfl⟩
  | cons byte data =>
    rw [List.filter_cons_of_pos (by simp), List.map_cons]
    obtain ⟨rest, hrest⟩ := orderedUnique_cons ("0x".toList ++ hexOf []) (List.map _ _)
    exact ⟨_, rest, hrest, .inl rfl⟩

/-- **A restless record always has another value, with which it is restless again.** -/
theorem valueCandidates_of_restless (h : Restless u record) : valueCandidates u record = .endless ∨
    ∃ value rest, valueCandidates u record = .values (value :: rest) ∧ (∀ c ∈ value, isLineBreak c = false) ∧
      Restless u (record.withValue value) := by
  rw [valueCandidates_eq]
  unfold Restless at h
  split at h
  · rename_i hkind
    rw [hkind]
    refine .inr ?_
    have hnext (value : Text) : Restless u (record.withValue value) := by
      unfold Restless
      rw [show (record.withValue value).ty = record.ty from rfl, hkind]
      trivial
    by_cases hzero : record.value = "0".toList
    · exact ⟨"1".toList, [], by rw [hzero]; rfl, List.all_iff_forall_prop.1 rfl, hnext _⟩
    · refine ⟨"0".toList, ["1".toList].filter fun value => value ≠ record.value, ?_,
        List.all_iff_forall_prop.1 rfl, hnext _⟩
      exact congrArg _ (List.filter_cons_of_pos (by simpa using Ne.symm hzero))
  · rename_i lo hi hkind
    obtain ⟨hlo, hhi⟩ := integer_bounds hkind
    obtain ⟨n, hn, hlarge⟩ := h
    obtain ⟨first, rest, heq, hfirst⟩ := integerCandidates_of_int hlo hhi hn hlarge
    rw [hkind]
    refine .inr ⟨first, rest, heq, ?_, ?_⟩
    · rcases hfirst with rfl | rfl <;> exact List.all_iff_forall_prop.1 rfl
    · unfold Restless
      rw [show (record.withValue first).ty = record.ty from rfl, hkind]
      rcases hfirst with rfl | rfl
      · exact ⟨0, int_zero, not_tooLarge_zero⟩
      · exact ⟨1, int_one, not_tooLarge_one⟩
  · rename_i hkind
    rw [hkind]
    refine (floatCandidates_of_float h).imp_right fun ⟨first, rest, heq, hfirst⟩ => ⟨first, rest, heq, ?_, ?_⟩
    · rcases hfirst with rfl | rfl <;> exact List.all_iff_forall_prop.1 rfl
    · unfold Restless
      rw [show (record.withValue first).ty = record.ty from rfl, hkind]
      rcases hfirst with rfl | rfl
      · exact Option.isSome_iff_exists.2 ⟨_, float_zero⟩
      · exact Option.isSome_iff_exists.2 ⟨_, float_one⟩
  · rename_i hkind
    obtain ⟨first, rest, heq, hfirst⟩ := hexByteCandidates_of_hex h.2.1 h.2.2
    rw [hkind]
    refine .inr ⟨first, rest, ?_, ?_, ?_⟩
    · dsimp only
      rw [if_pos h.1, heq]
    · rcases hfirst with rfl | rfl <;> exact List.all_iff_forall_prop.1 rfl
    · have hall : ∀ v ∈ ["0x".toList, "0x00".toList], startsHex v = true ∧ (v.drop 2).length % 2 = 0 ∧
          (fromHex (v.drop 2)).isSome = true := by decide
      unfold Restless
      rw [show (record.withValue first).ty = record.ty from rfl, hkind]
      exact hall first (by simpa using hfirst)
  · exact h.elim
  · exact h.elim

theorem not_overflows_of_restless (h : Restless u record) : ¬Overflows u record := by
  unfold Restless at h
  unfold Overflows
  split at h <;> rename_i hkind <;> rw [hkind]
  · exact id
  · rintro ⟨n, hn, hlarge⟩
    obtain ⟨m, hm, hsmall⟩ := h
    rw [hn] at hm
    cases hm
    exact hsmall hlarge
  · exact id
  · exact id
  · exact id
  · exact id

/-- What is tried for a text is a shorter beginning of it. -/
theorem mem_stringCandidates {candidate : Text} (h : candidate ∈ stringCandidates value) :
    ∃ n, candidate = value.take n ∧ candidate.length < value.length := by
  unfold stringCandidates at h
  obtain ⟨hmem, hne⟩ := List.mem_filter.1 h
  rw [decide_eq_true_iff] at hne
  rw [orderedUnique, List.mem_eraseDups] at hmem
  have htake : ∃ n, candidate = value.take n := by
    simp only [List.mem_append, List.mem_map, List.mem_cons, List.not_mem_nil, or_false] at hmem
    rcases hmem with ((rfl | rfl) | ⟨n, -, rfl⟩) | ⟨n, -, rfl⟩
    · exact ⟨0, rfl⟩
    · exact ⟨1, rfl⟩
    · exact ⟨n, rfl⟩
    · exact ⟨n, rfl⟩
  obtain ⟨n, rfl⟩ := htake
  refine ⟨n, rfl, ?_⟩
  by_contra hle
  rw [List.length_take, not_lt, le_min_iff] at hle
  exact hne (List.take_of_length_le hle.1)

theorem startsHex_of_take {n : ℕ} (h : startsHex (value.take n) = true) : startsHex value = true := by
  unfold startsHex at h ⊢
  rw [Bool.or_eq_true, List.isPrefixOf_iff_prefix, List.isPrefixOf_iff_prefix] at h ⊢
  exact h.imp (fun h => h.trans (List.take_prefix n value)) fun h => h.trans (List.take_prefix n value)

/-- A record that does not move: it is not restless, and its values can be asked for. -/
def Calm (u : CharacterData) (record : SeedRecord) : Prop := ¬Restless u record ∧ ¬Overflows u record

/-- **A calm record has only shorter values to try, with which it is calm again.** -/
theorem valueCandidates_of_calm (h : Calm u record) : ∃ values, valueCandidates u record = .values values ∧
    ∀ value ∈ values, value.length < record.value.length ∧ value ⊆ record.value ∧
      Calm u (record.withValue value) := by
  have hty (value : Text) : (record.withValue value).ty = record.ty := rfl
  have htake {value : Text} (hvalue : value ∈ stringCandidates record.value) :
      value.length < record.value.length ∧ value ⊆ record.value := by
    obtain ⟨n, rfl, hlt⟩ := mem_stringCandidates hvalue
    exact ⟨hlt, List.take_subset n _⟩
  obtain ⟨hrest, hover⟩ := h
  rw [valueCandidates_eq]
  unfold Calm
  unfold Restless at hrest ⊢
  unfold Overflows at hover ⊢
  simp only [hty]
  split at hrest <;> rename_i hkind <;> simp only [hkind] at hover ⊢
  · exact absurd trivial hrest
  · -- a numeral that cannot be read
    have hnone : u.int 0 record.value = none := by
      by_contra hsome
      obtain ⟨n, hn⟩ := Option.ne_none_iff_exists'.1 hsome
      exact hover ⟨n, hn, by_contra fun hsmall => hrest ⟨n, hn, hsmall⟩⟩
    refine ⟨[], ?_, fun value hvalue => nomatch hvalue⟩
    rw [integerCandidates, hnone]
  · refine ⟨[], ?_, fun value hvalue => nomatch hvalue⟩
    rw [Option.not_isSome_iff_eq_none] at hrest
    rw [floatCandidates, hrest]
  · by_cases hhex : startsHex record.value = true
    · refine ⟨[], ?_, fun value hvalue => nomatch hvalue⟩
      rw [if_pos hhex, hexByteCandidates]
      dsimp only
      split
      · rfl
      · rename_i heven
        rw [not_not] at heven
        have hnone : fromHex (record.value.drop 2) = none := by
          by_contra hsome
          exact hrest ⟨hhex, heven, Option.isSome_iff_ne_none.2 hsome⟩
        rw [hnone]
    · refine ⟨_, by rw [if_neg hhex], fun value hvalue => ?_⟩
      obtain ⟨n, rfl, hlt⟩ := mem_stringCandidates hvalue
      exact ⟨hlt, List.take_subset n _, fun hagain => hhex (startsHex_of_take hagain.1), id⟩
  · exact ⟨_, rfl, fun value hvalue => ⟨(htake hvalue).1, (htake hvalue).2, id, id⟩⟩
  · exact ⟨[], rfl, fun value hvalue => nomatch hvalue⟩

end Tried

/-! ## Whether the loop ends -/

section Ending

variable {u : CharacterData} {s : Shrinking} {record : SeedRecord} {rest : List SeedRecord} {value : Text}

/-- In order, up to a record whose values cannot be asked for, all records are calm. -/
def Settles (u : CharacterData) : List SeedRecord → Prop
  | [] => True
  | record :: rest => Overflows u record ∨ (Calm u record ∧ Settles u rest)

theorem replace_records (h : s.records.drop s.index = record :: rest) :
    (s.replace value).records = s.records.take s.index ++ record.withValue value :: rest := by
  change s.records.modify s.index _ = _
  rw [List.modify_eq_take_drop, h]
  rfl

theorem replace_drop (h : s.records.drop s.index = record :: rest) :
    (s.replace value).records.drop (s.replace value).index = record.withValue value :: rest := by
  have hlength : s.index < s.records.length := by
    have := congrArg List.length h
    rw [List.length_drop, List.length_cons] at this
    omega
  rw [replace_records h]
  exact List.drop_left' (by rw [List.length_take]; exact min_eq_left hlength.le)

theorem getElem?_of_drop (h : s.records.drop s.index = record :: rest) : s.records[s.index]? = some record := by
  rw [← List.head?_drop, h]
  rfl

theorem drop_succ (h : s.records.drop s.index = record :: rest) : s.records.drop (s.index + 1) = rest := by
  rw [← List.drop_drop, h]
  rfl

theorem wellFormed_withValue (h : WellFormed record) (hvalue : ∀ c ∈ value, isLineBreak c = false) :
    WellFormed (record.withValue value) := by
  refine ⟨h.name_comma, h.name_shown, h.ty_comma, h.ty_shown, fun c hc => ?_⟩
  have hcases : c ∈ record.name ∨ c = ',' ∨ c ∈ record.ty ∨ c ∈ value := by
    simp only [SeedRecord.withValue, SeedRecord.line, List.mem_append, List.mem_cons] at hc
    rcases hc with hc | hc | hc | hc | hc
    · exact .inl hc
    · exact .inr (.inl hc)
    · exact .inr (.inr (.inl hc))
    · exact .inr (.inl hc)
    · exact .inr (.inr (.inr hc))
  rcases hcases with hc | rfl | hc | hc
  · exact h.plain c (by simp [SeedRecord.line, hc])
  · rfl
  · exact h.plain c (by simp [SeedRecord.line, hc])
  · exact hvalue c hc

/-- An oracle that accepts every seed accepts the first value that is tried. -/
theorem shrinkValue_of_all {values : List Text} (hwell : ∀ record ∈ s.records, WellFormed record)
    (h : s.records.drop s.index = record :: rest) (hvalues : valueCandidates u record = .values (value :: values))
    (hvalue : ∀ c ∈ value, isLineBreak c = false) :
    shrinkValue u (fun _ => true) s = .next (s.replace value) ∧
      ∀ record ∈ (s.replace value).records, WellFormed record := by
  have hmem : record ∈ s.records := List.mem_of_mem_drop (h ▸ List.mem_cons_self)
  have hwell' : ∀ record ∈ (s.replace value).records, WellFormed record := by
    rw [replace_records h]
    intro other hother
    rcases List.mem_append.1 hother with hother | hother
    · exact hwell other (List.mem_of_mem_take hother)
    · rcases List.mem_cons.1 hother with rfl | hother
      · exact wellFormed_withValue (hwell record hmem) hvalue
      · exact hwell other (List.mem_of_mem_drop (h ▸ List.mem_cons_of_mem record hother))
  refine ⟨?_, hwell'⟩
  rw [shrinkValue, getElem?_of_drop h]
  dsimp only
  rw [hvalues]
  refine turnTo_head (reproduces_all hwell' ?_)
  rw [replace_records h]
  simp

/-- **A restless record keeps the loop going** when everything is accepted. -/
theorem not_ends_of_restless (hwell : ∀ record ∈ s.records, WellFormed record)
    (h : ¬Settles u (s.records.drop s.index)) : ¬Ends (shrinkValue u fun _ => true) s := by
  refine not_ends (fun s => (∀ record ∈ s.records, WellFormed record) ∧
    ¬Settles u (s.records.drop s.index)) (fun s ⟨hwell, h⟩ => ?_) ⟨hwell, h⟩
  cases hdrop : s.records.drop s.index with
  | nil =>
    rw [hdrop] at h
    exact absurd trivial h
  | cons record rest =>
    rw [hdrop, Settles, not_or, not_and] at h
    obtain ⟨hover, hrest⟩ := h
    by_cases hcalm : Calm u record
    · obtain ⟨values, hvalues, hall⟩ := valueCandidates_of_calm hcalm
      cases values with
      | nil =>
        refine .inr ⟨{ s with index := s.index + 1 }, ?_, hwell, ?_⟩
        · rw [shrinkValue, getElem?_of_drop hdrop]
          dsimp only
          rw [hvalues]
          rfl
        · rw [drop_succ hdrop]
          exact hrest hcalm
      | cons value values =>
        obtain ⟨-, hsub, hcalm'⟩ := hall value List.mem_cons_self
        have hmem : record ∈ s.records := List.mem_of_mem_drop (hdrop ▸ List.mem_cons_self)
        obtain ⟨hturn, hwell'⟩ := shrinkValue_of_all hwell hdrop hvalues fun c hc =>
          (hwell record hmem).plain c (by simp [SeedRecord.line, hsub hc])
        refine .inr ⟨_, hturn, hwell', ?_⟩
        rw [replace_drop hdrop, Settles, not_or, not_and]
        exact ⟨hcalm'.2, fun _ => hrest hcalm⟩
    · have hrestless : Restless u record := by
        by_contra hnot
        exact hcalm ⟨hnot, hover⟩
      rcases valueCandidates_of_restless hrestless with hendless | ⟨value, values, hvalues, hplain, hagain⟩
      · refine .inl ?_
        rw [shrinkValue, getElem?_of_drop hdrop]
        dsimp only
        rw [hendless]
      · obtain ⟨hturn, hwell'⟩ := shrinkValue_of_all hwell hdrop hvalues hplain
        refine .inr ⟨_, hturn, hwell', ?_⟩
        rw [replace_drop hdrop, Settles, not_or, not_and]
        exact ⟨not_overflows_of_restless hagain, fun hcalm' => absurd hagain hcalm'.1⟩

/-- The characters of the values, and the records that are still to be looked at. -/
def shrinkMeasure (s : Shrinking) : ℕ :=
  (s.records.map fun record => record.value.length).sum + (s.records.length - s.index)

/-- **Where the records settle the loop ends**, whatever is accepted. -/
theorem ends_of_settles (oracle : Oracle) (h : Settles u (s.records.drop s.index)) :
    Ends (shrinkValue u oracle) s := by
  refine ends_of_measure (fun s => Settles u (s.records.drop s.index)) shrinkMeasure (fun s h => ?_)
    (fun s s' h hturn => ?_) h
  · unfold shrinkValue
    cases hdrop : s.records.drop s.index with
    | nil =>
      rw [List.getElem?_eq_none (List.drop_eq_nil_iff.1 hdrop)]
      exact fun h => nomatch h
    | cons record rest =>
      rw [getElem?_of_drop hdrop]
      dsimp only
      rw [hdrop, Settles] at h
      rcases h with hover | ⟨hcalm, -⟩
      · rw [valueCandidates_of_overflows hover]
        exact fun h => nomatch h
      · obtain ⟨values, hvalues, -⟩ := valueCandidates_of_calm hcalm
        rw [hvalues]
        exact turnTo_ne_endless fun h => nomatch h
  · unfold shrinkValue at hturn
    cases hdrop : s.records.drop s.index with
    | nil =>
      rw [List.getElem?_eq_none (List.drop_eq_nil_iff.1 hdrop)] at hturn
      cases hturn
    | cons record rest =>
      have hlength : s.index < s.records.length := by
        have := congrArg List.length hdrop
        rw [List.length_drop, List.length_cons] at this
        omega
      rw [getElem?_of_drop hdrop] at hturn
      dsimp only at hturn
      rw [hdrop, Settles] at h
      rcases h with hover | ⟨hcalm, hrest⟩
      · rw [valueCandidates_of_overflows hover] at hturn
        cases hturn
      · obtain ⟨values, hvalues, hall⟩ := valueCandidates_of_calm hcalm
        rw [hvalues] at hturn
        rcases turnTo_next hturn with ⟨hmem, -⟩ | hnext
        · -- the value has become shorter
          obtain ⟨value, hvalue, rfl⟩ := List.mem_map.1 hmem
          obtain ⟨hshort, -, hcalm'⟩ := hall value hvalue
          rw [replace_drop hdrop, Settles]
          refine ⟨.inr ⟨hcalm', hrest⟩, ?_⟩
          have hrecords : s.records = s.records.take s.index ++ record :: rest := by
            rw [← hdrop, List.take_append_drop]
          unfold shrinkMeasure
          rw [replace_records hdrop]
          conv_rhs => rw [hrecords]
          simp only [List.map_append, List.map_cons, List.sum_append, List.sum_cons, List.length_append,
            List.length_cons, SeedRecord.withValue, Shrinking.replace]
          omega
        · cases hnext
          rw [drop_succ hdrop]
          refine ⟨hrest, ?_⟩
          unfold shrinkMeasure
          dsimp only
          omega

end Ending

/-! ## The result -/

/-- **Shrinking ends for every oracle exactly where the records settle**: where there is no `BOOL`, no integer
that can be read, no floating-point number that can be read and no hexadecimal bytes, before a first integer
that is too large to be halved. -/
theorem shrinkValues_ends_iff (u : CharacterData) (seed : Text) (records : List SeedRecord)
    (hparse : parseSeed u seed = some records) :
    (∀ oracle, Ends (shrinkValue u oracle) ⟨records, 0⟩) ↔ Settles u records := by
  obtain ⟨-, hwell, -⟩ := parseSeed_spec hparse
  constructor
  · intro h
    by_contra hnot
    exact not_ends_of_restless (s := ⟨records, 0⟩) hwell hnot (h _)
  · exact fun h oracle => ends_of_settles oracle h

/-- `valve,BOOL,0` -/
def valveSeed : Text := "valve,BOOL,0\n".toList

theorem parseSeed_valve :
    parseSeed asciiCharacters valveSeed = some [⟨"valve".toList, "BOOL".toList, "0".toList, 0⟩] := by
  decide +kernel

/-- With an oracle that accepts every seed, `valve` is 0, 1, 0, and so on. -/
theorem shrinkValues_endless : ¬∀ (seed : Text) (records : List SeedRecord),
    parseSeed asciiCharacters seed = some records →
      ∀ oracle, Ends (shrinkValue asciiCharacters oracle) ⟨records, 0⟩ := by
  intro h
  obtain ⟨-, hwell, -⟩ := parseSeed_spec parseSeed_valve
  refine not_ends_of_restless (s := ⟨[⟨"valve".toList, "BOOL".toList, "0".toList, 0⟩], 0⟩) hwell ?_
    (h valveSeed _ parseSeed_valve fun _ => true)
  rintro (hover | ⟨hcalm, -⟩)
  · exact hover
  · exact hcalm.1 trivial

/-- A text settles, and a `BOOL` does not. -/
theorem shrinkValues_ends_iff_tag :
    ((∀ oracle, Ends (shrinkValue asciiCharacters oracle)
        ⟨[⟨"tag".toList, "STRING".toList, "abc".toList, 0⟩], 0⟩) ↔
      Settles asciiCharacters [⟨"tag".toList, "STRING".toList, "abc".toList, 0⟩]) ∧
    ((∀ oracle, Ends (shrinkValue asciiCharacters oracle)
        ⟨[⟨"valve".toList, "BOOL".toList, "0".toList, 0⟩], 0⟩) ↔
      Settles asciiCharacters [⟨"valve".toList, "BOOL".toList, "0".toList, 0⟩]) :=
  ⟨shrinkValues_ends_iff asciiCharacters "tag,STRING,abc\n".toList _ (by decide +kernel),
    shrinkValues_ends_iff asciiCharacters valveSeed _ parseSeed_valve⟩

end SemantiST.Reporting
