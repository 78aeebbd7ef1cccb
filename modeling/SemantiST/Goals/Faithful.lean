import SemantiST.Goals.Guards

/-!
# The distance of a path

The sum of a path is zero exactly when the comparisons under all guards of its task are met.
-/

namespace SemantiST.Goals

open Lib Semantic

/-! ## The distance of a condition -/

theorem shortfall_spec {op : Text} (h : op ∈ comparisonOperators) (value rhs : ℤ) :
    ∃ d, shortfall op value rhs = some d ∧ 0 ≤ d ∧ (d = 0 ↔ relation op value rhs) := by
  simp only [comparisonOperators, List.mem_cons, List.not_mem_nil, or_false] at h
  rcases h with rfl | rfl | rfl | rfl | rfl | rfl | rfl | rfl
  · refine ⟨|value - rhs|, rfl, abs_nonneg _, ?_⟩
    rw [abs_eq_zero, sub_eq_zero]
    simp [relation]
  · refine ⟨|value - rhs|, rfl, abs_nonneg _, ?_⟩
    rw [abs_eq_zero, sub_eq_zero]
    simp [relation]
  · refine ⟨if value = rhs then 1 else 0, rfl, ?_, ?_⟩
    · split <;> simp
    · split <;> simp [relation, *]
  · refine ⟨if value = rhs then 1 else 0, rfl, ?_, ?_⟩
    · split <;> simp
    · split <;> simp [relation, *]
  · have hrelation : relation ">".toList value rhs ↔ rhs < value := by simp [relation]
    refine ⟨max (rhs - value + 1) 0, rfl, le_max_right _ _, ?_⟩
    rw [hrelation]
    omega
  · refine ⟨max (rhs - value) 0, rfl, le_max_right _ _, ?_⟩
    simp [relation]
  · have hrelation : relation "<".toList value rhs ↔ value < rhs := by simp [relation]
    refine ⟨max (value - rhs + 1) 0, rfl, le_max_right _ _, ?_⟩
    rw [hrelation]
    omega
  · refine ⟨max (value - rhs) 0, rfl, le_max_right _ _, ?_⟩
    simp [relation]

theorem effectiveOperator_mem {op : Text} (h : op ∈ comparisonOperators) (polarity : Option Text) :
    effectiveOperator op polarity ∈ comparisonOperators := by
  unfold effectiveOperator
  simp only [comparisonOperators, List.mem_cons, List.not_mem_nil, or_false] at h
  rcases h with rfl | rfl | rfl | rfl | rfl | rfl | rfl | rfl <;> split <;> decide

theorem relation_effectiveOperator {op : Text} (h : op ∈ comparisonOperators) (polarity : Option Text)
    (a b : ℤ) : relation (effectiveOperator op polarity) a b = (relation op a b != isInverse polarity) := by
  unfold effectiveOperator
  cases isInverse polarity with
  | false => simp
  | true =>
    simp only [comparisonOperators, List.mem_cons, List.not_mem_nil, or_false] at h
    rcases h with rfl | rfl | rfl | rfl | rfl | rfl | rfl | rfl <;>
      rw [Bool.eq_iff_iff] <;> simp [relation]

/-- The condition of a comparison is met, the other way where the polarity of the task is. -/
def Meets (u : UnicodeData) (value : Expression → ℤ) (polarity : Option Text) (comparison : Expression) : Prop :=
  holds u value comparison = !isInverse polarity

section

variable {u : UnicodeData} {values : Values} {comparison : Expression} {condition : Condition} {rhs : ℤ}

theorem leastDouble_le_intCast {n : ℤ} (h : 0 < n) : leastDouble ≤ (n : ℚ) :=
  (leastDouble_le_zpow (k := 0) (by norm_num)).trans (by exact_mod_cast h)

theorem f64_abs_le {n : ℤ} (h : |n| ≤ 2 ^ 64) : f64 ((|n| : ℤ) : ℚ) ≤ 2 ^ 65 := by
  rcases (abs_nonneg n).eq_or_lt' with hzero | hpos
  · rw [hzero, Int.cast_zero, f64_zero]
    positivity
  · have hle : ((|n| : ℤ) : ℚ) ≤ 2 ^ 64 := by exact_mod_cast h
    calc f64 ((|n| : ℤ) : ℚ) ≤ 2 * ((|n| : ℤ) : ℚ) := f64_le (leastDouble_le_intCast hpos)
      _ ≤ 2 ^ 65 := by linarith

theorem f64_nonneg {q : ℚ} (h : q = 0 ∨ leastDouble ≤ q) : 0 ≤ f64 q := by
  rcases h with rfl | h
  · rw [f64_zero]
  · exact leastDouble_pos.le.trans (leastDouble_le_f64 h)

/-- What a comparison lacks, divided by the size of its constant. -/
theorem quotient_spec {distance rhs : ℤ} (hdistance : 0 ≤ distance) (hrhs : |rhs| ≤ 2 ^ 64) :
    let d := f64 (f64 distance / f64 (1 + f64 ((|rhs| : ℤ) : ℚ)))
    (d = 0 ∨ leastDouble ≤ d) ∧ (d = 0 ↔ distance = 0) := by
  intro d
  rcases hdistance.eq_or_lt' with rfl | hpos
  · have hzero : d = 0 := by
      simp only [d, Int.cast_zero, f64_zero, zero_div]
    exact ⟨.inl hzero, by simp [hzero]⟩
  · have hsize := f64_abs_le hrhs
    have hsize' : 0 ≤ f64 ((|rhs| : ℤ) : ℚ) := by
      apply f64_nonneg
      rcases (abs_nonneg rhs).eq_or_lt' with hzero | hpos
      · exact .inl (by exact_mod_cast hzero)
      · exact .inr (leastDouble_le_intCast hpos)
    have hleast : leastDouble ≤ 1 + f64 ((|rhs| : ℤ) : ℚ) := by
      have hone := leastDouble_le_intCast one_pos
      push_cast at hone
      linarith
    have hlow : 1 / 2 ≤ f64 (distance : ℚ) := by
      have hle := le_f64 (leastDouble_le_intCast hpos)
      have hone : (1 : ℚ) ≤ distance := by exact_mod_cast hpos
      linarith
    have hhigh : f64 (1 + f64 ((|rhs| : ℤ) : ℚ)) ≤ 2 ^ 67 := by
      have hle := f64_le hleast
      linarith
    have hpos' : 0 < f64 (1 + f64 ((|rhs| : ℤ) : ℚ)) :=
      leastDouble_pos.trans_le (leastDouble_le_f64 hleast)
    have hquotient : leastDouble ≤ f64 distance / f64 (1 + f64 ((|rhs| : ℤ) : ℚ)) := by
      rw [le_div_iff₀ hpos']
      calc leastDouble * f64 (1 + f64 ((|rhs| : ℤ) : ℚ)) ≤ leastDouble * 2 ^ 67 :=
            mul_le_mul_of_nonneg_left hhigh leastDouble_pos.le
        _ ≤ 2 ^ (-68 : ℤ) * 2 ^ 67 :=
            mul_le_mul_of_nonneg_right (leastDouble_le_zpow (by norm_num)) (by positivity)
        _ = 1 / 2 := by norm_num
        _ ≤ f64 distance := hlow
    have hd := leastDouble_le_f64 hquotient
    have hne : d ≠ 0 := (leastDouble_pos.trans_le hd).ne'
    exact ⟨.inr hd, by simp [hne, hpos.ne']⟩

theorem jsonI128_integer (h : -2 ^ 63 ≤ rhs ∧ rhs < 2 ^ 64) : jsonI128 (.integer rhs) = some rhs := if_pos h

/-- The distance of a condition is known, and zero exactly when the condition is met. -/
theorem Reads.conditionDistance (h : Reads u comparison condition rhs) (hcovered : Covered values comparison)
    (hfits : Fits u comparison) (polarity : Option Text) :
    ∃ d, conditionDistance condition values polarity = some d ∧ (d = 0 ∨ leastDouble ≤ d) ∧
      (d = 0 ↔ Meets u (observedValue values) polarity comparison) := by
  obtain ⟨value, hvalue⟩ := Option.isSome_iff_exists.1 ((h.covered_iff values).1 hcovered)
  have hrange := h.fits_iff.1 hfits
  obtain ⟨distance, hdistance, hnonneg, hzero⟩ :=
    shortfall_spec (effectiveOperator_mem h.op_mem polarity) value rhs
  obtain ⟨hleast, hiff⟩ := quotient_spec hnonneg (abs_le.2 ⟨by omega, by omega⟩ : |rhs| ≤ 2 ^ 64)
  refine ⟨_, ?_, hleast, ?_⟩
  · simp only [Goals.conditionDistance, hvalue, h.const_eq, jsonI128_integer hrange, hdistance,
      Option.bind_eq_bind, Option.bind_some, Int.cast_abs]
  · rw [hiff, hzero, relation_effectiveOperator h.op_mem, Meets, h.holds_eq]
    have hvalue' : valueOf values condition.field = value := by rw [valueOf, hvalue, Option.getD_some]
    rw [hvalue']
    cases relation condition.op value rhs <;> cases isInverse polarity <;> simp

theorem Reads.conditionDistance_eq_none (h : Reads u comparison condition rhs)
    (hunknown : ¬(Fits u comparison ∧ Covered values comparison)) (polarity : Option Text) :
    Goals.conditionDistance condition values polarity = none := by
  by_cases hfits : Fits u comparison
  · have hnone : valueForField values condition.field = none :=
      Option.not_isSome_iff_eq_none.1 fun hsome => hunknown ⟨hfits, (h.covered_iff values).2 hsome⟩
    simp [Goals.conditionDistance, hnone]
  · have hnone : jsonI128 condition.const = none := by
      rw [h.const_eq]
      exact if_neg (mt h.fits_iff.2 hfits)
    simp [Goals.conditionDistance, hnone]

/-! ## The sum of a path -/

theorem conditionSum_append (values : Values) (polarity : Option Text) (before : List Condition)
    (condition : Condition) :
    conditionSum values polarity (before ++ [condition]) =
      (conditionSum values polarity before).bind fun total =>
        (Goals.conditionDistance condition values polarity).map fun distance => f64 (total + distance) := by
  simp [conditionSum, List.foldlM_append]

variable {conditions : List Condition} {polarity : Option Text}

/-- Where each distance is known, so is the sum, and it is zero exactly when all of them are. -/
theorem conditionSum_eq_some {met : Condition → Prop}
    (h : ∀ condition ∈ conditions, ∃ d, Goals.conditionDistance condition values polarity = some d ∧
      (d = 0 ∨ leastDouble ≤ d) ∧ (d = 0 ↔ met condition)) :
    ∃ total, conditionSum values polarity conditions = some total ∧ (total = 0 ∨ leastDouble ≤ total) ∧
      (total = 0 ↔ ∀ condition ∈ conditions, met condition) := by
  induction conditions using List.reverseRecOn with
  | nil => exact ⟨0, rfl, .inl rfl, by simp⟩
  | append_singleton before condition ih =>
    obtain ⟨total, htotal, hleast, hiff⟩ := ih fun c hc => h c (List.mem_append_left _ hc)
    obtain ⟨d, hd, hleast', hiff'⟩ := h condition (by simp)
    have hsum : total + d = 0 ∨ leastDouble ≤ total + d := by
      have hpos := leastDouble_pos
      rcases hleast with hzero | hle
      · rw [hzero, zero_add]
        exact hleast'
      · rcases hleast' with hzero' | hle'
        · rw [hzero', add_zero]
          exact .inr hle
        · exact .inr (by linarith)
    have hzero : total + d = 0 ↔ total = 0 ∧ d = 0 := by
      have hpos := leastDouble_pos
      constructor
      · intro heq
        rcases hleast with hzero | hle
        · exact ⟨hzero, by linarith⟩
        · rcases hleast' with hzero' | hle'
          · exact ⟨by linarith, hzero'⟩
          · linarith
      · rintro ⟨hzero, hzero'⟩
        rw [hzero, hzero', add_zero]
    refine ⟨f64 (total + d), ?_, ?_, ?_⟩
    · rw [conditionSum_append, htotal, hd]
      rfl
    · rcases hsum with heq | hle
      · exact .inl (by rw [heq, f64_zero])
      · exact .inr (leastDouble_le_f64 hle)
    · rw [f64_eq_zero_iff hsum, hzero, hiff, hiff', List.forall_mem_append]
      simp

theorem conditionSum_eq_none {condition : Condition} (hmem : condition ∈ conditions)
    (hnone : Goals.conditionDistance condition values polarity = none) :
    conditionSum values polarity conditions = none := by
  obtain ⟨before, after, rfl⟩ := List.append_of_mem hmem
  simp only [conditionSum, List.foldlM_append, List.foldlM_cons, hnone, Option.map_none, Option.bind_eq_bind,
    Option.bind_none, Option.bind_fun_none]

/-! ## Conditions that occur twice -/

theorem same_integer {a b : ℤ} : Constant.same (.integer a) (.integer b) = true ↔ a = b := by
  simp [Constant.same, Constant.rational]

theorem mem_dedupe_foldl (conditions kept : List Condition) (condition : Condition)
    (h : condition ∈ conditions.foldl (fun kept condition =>
      if kept.any condition.same then kept else kept ++ [condition]) kept) :
    condition ∈ kept ∨ condition ∈ conditions := by
  induction conditions generalizing kept with
  | nil => exact .inl h
  | cons first conditions ih =>
    rw [List.foldl_cons] at h
    rcases ih _ h with h | h
    · split at h
      · exact .inl h
      · rcases List.mem_append.1 h with h | h
        · exact .inl h
        · exact .inr (List.mem_singleton.1 h ▸ List.mem_cons_self)
    · exact .inr (List.mem_cons_of_mem _ h)

/-- A condition with an integer. -/
def Condition.HasInteger (condition : Condition) : Prop := ∃ n, condition.const = .integer n

theorem eq_of_same {a b : Condition} (ha : a.HasInteger) (hb : b.HasInteger) (h : a.same b = true) : a = b := by
  obtain ⟨n, hn⟩ := ha
  obtain ⟨m, hm⟩ := hb
  obtain ⟨field, op, const⟩ := a
  obtain ⟨field', op', const'⟩ := b
  subst hn hm
  simp only [Condition.same, Bool.and_eq_true, beq_iff_eq, same_integer] at h
  obtain ⟨⟨rfl, rfl⟩, rfl⟩ := h
  rfl

theorem mem_foldl_dedupe (conditions kept : List Condition) (hkept : ∀ c ∈ kept, c.HasInteger)
    (hconditions : ∀ c ∈ conditions, c.HasInteger) (condition : Condition)
    (h : condition ∈ kept ∨ condition ∈ conditions) :
    condition ∈ conditions.foldl (fun kept condition =>
      if kept.any condition.same then kept else kept ++ [condition]) kept := by
  induction conditions generalizing kept with
  | nil =>
    rcases h with h | h
    · exact h
    · cases h
  | cons first conditions ih =>
    obtain ⟨hfirst, hrest⟩ := List.forall_mem_cons.1 hconditions
    rw [List.foldl_cons]
    split
    · rename_i hany
      obtain ⟨kept', hkept', hsame⟩ := List.any_eq_true.1 hany
      apply ih kept hkept hrest
      rcases h with h | h
      · exact .inl h
      · rcases List.mem_cons.1 h with rfl | h
        · exact .inl (eq_of_same hfirst (hkept kept' hkept') hsame ▸ hkept')
        · exact .inr h
    · apply ih (kept ++ [first]) _ hrest
      · rcases h with h | h
        · exact .inl (List.mem_append_left _ h)
        · rcases List.mem_cons.1 h with rfl | h
          · exact .inl (List.mem_append_right _ List.mem_cons_self)
          · exact .inr h
      · rw [List.forall_mem_append]
        exact ⟨hkept, by simpa using hfirst⟩

theorem mem_dedupe_iff (h : ∀ c ∈ conditions, c.HasInteger) {condition : Condition} :
    condition ∈ dedupe conditions ↔ condition ∈ conditions := by
  constructor
  · intro hmem
    rcases mem_dedupe_foldl conditions [] condition hmem with hmem | hmem
    · cases hmem
    · exact hmem
  · intro hmem
    exact mem_foldl_dedupe conditions [] (by simp) h condition (.inr hmem)

end

/-! ## The sum and the guards -/

section

variable {u : UnicodeData} {task : PlanTask} {values : Values}

theorem taskConditions_eq (h : ∀ guard ∈ task.guards, IsGuard u guard) :
    taskConditions u task = task.comparisons.flatMap (conditions u) := by
  have hall : taskConditions u task = task.guards.flatMap (conditions u) := by
    rw [taskConditions, PlanTask.guards, List.flatMap_append]
    congr 1
    · induction task.controlObligations with
      | nil => rfl
      | cons obligation rest ih =>
        rw [List.flatMap_cons, List.filterMap_cons, ih]
        cases obligation.goalExpression <;> rfl
    · cases task.terminalGoalExpression with
      | none => rfl
      | some expression => exact (List.flatMap_singleton ..).symm
  rw [hall, PlanTask.comparisons, List.flatMap_assoc]
  exact List.flatMap_congr fun guard hguard => (h guard hguard).conditions_eq

theorem reads_of_mem (h : ∀ guard ∈ task.guards, IsGuard u guard) {comparison : Expression}
    (hcomparison : comparison ∈ task.comparisons) : ∃ condition rhs, Reads u comparison condition rhs := by
  obtain ⟨guard, hguard, hcomparison⟩ := List.mem_flatMap.1 hcomparison
  exact (h guard hguard).reads comparison hcomparison

/-- The conditions of a path are those of all comparisons of the task. -/
theorem mem_goalPath (h : ∀ guard ∈ task.guards, IsGuard u guard) (path : CandidatePath)
    {condition : Condition} :
    condition ∈ (goalPath u task path).conditions ↔
      ∃ comparison ∈ task.comparisons, ∃ rhs, Reads u comparison condition rhs := by
  have hmem : ∀ c, c ∈ taskConditions u task ↔
      ∃ comparison ∈ task.comparisons, ∃ rhs, Reads u comparison c rhs := by
    intro c
    rw [taskConditions_eq h, List.mem_flatMap]
    constructor
    · rintro ⟨comparison, hcomparison, hc⟩
      obtain ⟨condition, rhs, hreads⟩ := reads_of_mem h hcomparison
      rw [hreads.conditions_eq, List.mem_singleton] at hc
      exact ⟨comparison, hcomparison, rhs, hc ▸ hreads⟩
    · rintro ⟨comparison, hcomparison, rhs, hreads⟩
      refine ⟨comparison, hcomparison, ?_⟩
      rw [hreads.conditions_eq]
      exact List.mem_singleton_self c
  have hinteger : ∀ c ∈ taskConditions u task, c.HasInteger := by
    intro c hc
    obtain ⟨_, _, rhs, hreads⟩ := (hmem c).1 hc
    exact ⟨rhs, hreads.const_eq⟩
  rw [goalPath, mem_dedupe_iff hinteger, hmem]

theorem isInverse_filter (polarity : Option Text) :
    isInverse (polarity.filter (· ≠ [])) = isInverse polarity := by
  cases polarity with
  | none => rfl
  | some value =>
    by_cases h : value = []
    · subst h
      rfl
    · rw [Option.filter_some_pos (by simpa using h)]

theorem Reads.meets_iff {comparison comparison' : Expression} {condition : Condition} {rhs rhs' : ℤ}
    (h : Reads u comparison condition rhs) (h' : Reads u comparison' condition rhs') (polarity : Option Text) :
    Meets u (observedValue values) polarity comparison ↔ Meets u (observedValue values) polarity comparison' := by
  have hrhs : rhs = rhs' := by
    have hconst := h.const_eq.symm.trans h'.const_eq
    cases hconst
    rfl
  rw [Meets, Meets, h.holds_eq, h'.holds_eq, hrhs]

/-- Where all constants fit, the sum tells whether all comparisons of the task are met. -/
theorem conditionSum_goalPath (hguards : ∀ guard ∈ task.guards, IsGuard u guard)
    (hcovered : ∀ comparison ∈ task.comparisons, Covered values comparison)
    (hfits : ∀ comparison ∈ task.comparisons, Fits u comparison) (path : CandidatePath) :
    ∃ total, conditionSum values (buildGoalTask u task).polarity (goalPath u task path).conditions = some total ∧
      (total = 0 ∨ leastDouble ≤ total) ∧
      (total = 0 ↔ ∀ comparison ∈ task.comparisons, Meets u (observedValue values) task.polarity comparison) := by
  have hknown : ∀ condition ∈ (goalPath u task path).conditions,
      ∃ d, conditionDistance condition values (buildGoalTask u task).polarity = some d ∧
        (d = 0 ∨ leastDouble ≤ d) ∧
        (d = 0 ↔ ∀ comparison rhs, Reads u comparison condition rhs →
          Meets u (observedValue values) task.polarity comparison) := by
    intro condition hcondition
    obtain ⟨comparison, hcomparison, rhs, hreads⟩ := (mem_goalPath hguards path).1 hcondition
    obtain ⟨d, hd, hleast, hiff⟩ := hreads.conditionDistance (hcovered comparison hcomparison)
      (hfits comparison hcomparison) (buildGoalTask u task).polarity
    have hpolarity : Meets u (observedValue values) (buildGoalTask u task).polarity comparison ↔
        Meets u (observedValue values) task.polarity comparison := by
      rw [Meets, Meets, buildGoalTask, isInverse_filter]
    refine ⟨d, hd, hleast, ?_⟩
    rw [hiff, hpolarity]
    constructor
    · intro h comparison' rhs' hreads'
      exact (hreads.meets_iff hreads' _).1 h
    · intro h
      exact h comparison rhs hreads
  obtain ⟨total, htotal, hleast, hiff⟩ := conditionSum_eq_some hknown
  refine ⟨total, htotal, hleast, ?_⟩
  rw [hiff]
  constructor
  · intro h comparison hcomparison
    obtain ⟨condition, rhs, hreads⟩ := reads_of_mem hguards hcomparison
    exact h condition ((mem_goalPath hguards path).2 ⟨comparison, hcomparison, rhs, hreads⟩) comparison rhs hreads
  · intro h condition hcondition comparison rhs hreads
    obtain ⟨comparison', hcomparison', rhs', hreads'⟩ := (mem_goalPath hguards path).1 hcondition
    exact (hreads'.meets_iff hreads _).1 (h comparison' hcomparison')

/-- A constant that does not fit or a field that is not observed leaves the sum unknown. -/
theorem conditionSum_goalPath_eq_none (hguards : ∀ guard ∈ task.guards, IsGuard u guard)
    {comparison : Expression} (hcomparison : comparison ∈ task.comparisons) (hunknown : ¬(Fits u comparison ∧ Covered values comparison))
    (path : CandidatePath) :
    conditionSum values (buildGoalTask u task).polarity (goalPath u task path).conditions = none := by
  obtain ⟨condition, rhs, hreads⟩ := reads_of_mem hguards hcomparison
  exact conditionSum_eq_none ((mem_goalPath hguards path).2 ⟨comparison, hcomparison, rhs, hreads⟩)
    (hreads.conditionDistance_eq_none hunknown _)

/-- The sum of a path is zero exactly when the guards on the path hold, and positive otherwise. -/
def Faithful (u : UnicodeData) (task : PlanTask) (path : CandidatePath) (values : Values) (ρ : Text → ℤ) : Prop :=
  ∃ total, conditionSum values (buildGoalTask u task).polarity (goalPath u task path).conditions = some total ∧
    (total = 0 ↔ ∀ guard ∈ task.guardsOn path, holds u (pathValue ρ) guard) ∧
    ((¬∀ guard ∈ task.guardsOn path, holds u (pathValue ρ) guard) → 0 < total)

/-- **The sum of a path is faithful** exactly when all constants fit into 64 bits, all fields are observed, and
the comparisons under all guards of the task, read without their `NOT`s for the values that are observed, hold
together exactly when the guards on the path do.  The variables of a program have the values that are observed. -/
theorem conditionSum_faithful_iff (hguards : ∀ guard ∈ task.guards, IsGuard u guard) (path : CandidatePath)
    (values : Values) (ρ : Text → ℤ) :
    (Faithful u task path values ρ ↔
      (∀ comparison ∈ task.comparisons, Fits u comparison ∧ Covered values comparison) ∧
        ((∀ comparison ∈ task.comparisons, Meets u (observedValue values) task.polarity comparison) ↔
          ∀ guard ∈ task.guardsOn path, holds u (pathValue ρ) guard)) ∧
    ∀ program, Observes values program ρ → ∀ comparison ∈ task.comparisons, Plain values program comparison →
      (Meets u (observedValue values) task.polarity comparison ↔ Meets u (pathValue ρ) task.polarity comparison) := by
  refine ⟨?_, fun program hobserves comparison hcomparison hplain => ?_⟩
  · by_cases hknown : ∀ comparison ∈ task.comparisons, Fits u comparison ∧ Covered values comparison
    · obtain ⟨total, htotal, hleast, hiff⟩ := conditionSum_goalPath hguards
        (fun comparison hcomparison => (hknown comparison hcomparison).2)
        (fun comparison hcomparison => (hknown comparison hcomparison).1) path
      constructor
      · rintro ⟨total', htotal', hiff', -⟩
        rw [htotal] at htotal'
        cases htotal'
        exact ⟨hknown, hiff.symm.trans hiff'⟩
      · rintro ⟨-, h⟩
        refine ⟨total, htotal, hiff.trans h, ?_⟩
        intro hnot
        rcases hleast with hzero | hle
        · exact absurd (h.1 (hiff.1 hzero)) hnot
        · exact leastDouble_pos.trans_le hle
    · constructor
      · rintro ⟨total, htotal, -⟩
        simp only [not_forall] at hknown
        obtain ⟨comparison, hcomparison, hknown⟩ := hknown
        rw [conditionSum_goalPath_eq_none hguards hcomparison hknown path] at htotal
        cases htotal
      · rintro ⟨h, -⟩
        exact absurd h hknown
  · obtain ⟨condition, rhs, hreads⟩ := reads_of_mem hguards hcomparison
    rw [Meets, Meets, hreads.plain values program ρ hobserves hplain]

end

/-! ## A negated guard -/

/-- The variable `name` of a program `P`. -/
def variableOf (name : Text) : Expression where
  kind := .memberAccess (some name)
  operands := [{ kind := .variable ("P.".toList ++ name) }]

/-- `field > 5`. -/
def above (field : Expression) : Expression where
  kind := .binary ">".toList
  operands := [field, { kind := .literal (.integer "5".toList) }]

def negatedGuard : Expression where
  kind := .unary "NOT".toList
  operands := [above (variableOf "X".toList)]

/-- A task with a guard on its only path. -/
def guardedBy (guard : Expression) : PlanTask where
  controlObligations := [{ evaluationEdgeId := "e".toList, goalExpression := some guard }]
  candidatePaths := [{ pathId := "p".toList, edgeIds := ["e".toList] }]

def onlyPath : CandidatePath where
  pathId := "p".toList
  edgeIds := ["e".toList]

theorem zero_fits : -2 ^ 63 ≤ (0 : ℤ) ∧ (0 : ℤ) < 2 ^ 64 := by decide

/-- `X` is zero. -/
def zeroValues : Values := insertAll ∅ [("X".toList, ⟨0, zero_fits⟩)]

theorem literal_five :
    literal asciiData { kind := .literal (.integer "5".toList) } = some (.integer 5) := by decide

theorem isGuard_above : IsGuard asciiData (above (variableOf "X".toList)) :=
  .field (by decide) (.identifier "X".toList none [] "P.X".toList none []) (by decide) ⟨literal_five, rfl⟩

theorem fits_above (field : Expression) (h : literal asciiData field = none) : Fits asciiData (above field) := by
  intro operand hoperand value hvalue
  rcases List.mem_pair.1 hoperand with rfl | rfl
  · rw [h] at hvalue
    cases hvalue
  · rw [literal_five] at hvalue
    cases hvalue
    decide

theorem covered_above : Covered zeroValues (above (variableOf "X".toList)) := by
  intro operand hoperand field hfield
  rcases List.mem_pair.1 hoperand with rfl | rfl
  · cases hfield
    decide +kernel
  · cases hfield

theorem faithful_above : Faithful asciiData (guardedBy (above (variableOf "X".toList))) onlyPath zeroValues fun _ => 0 := by
  refine (conditionSum_faithful_iff ?_ onlyPath zeroValues fun _ => 0).1.2 ⟨?_, ?_⟩
  · intro guard hguard
    rw [List.mem_singleton.1 hguard]
    exact isGuard_above
  · intro comparison hcomparison
    rw [List.mem_singleton.1 hcomparison]
    exact ⟨fits_above _ rfl, covered_above⟩
  · constructor
    · intro h
      exact absurd (h (above (variableOf "X".toList)) (List.mem_singleton_self _))
        (by unfold Meets; decide +kernel)
    · intro h
      exact absurd (h (above (variableOf "X".toList)) (List.mem_singleton_self _)) (by decide +kernel)

/-- A positive sum is not that of a path whose guards hold. -/
theorem not_faithful_of_pos {guard : Expression} {values : Values} {ρ : Text → ℤ} {total : ℚ} (hpos : total ≠ 0)
    (htotal : conditionSum values (buildGoalTask asciiData (guardedBy guard)).polarity
      (goalPath asciiData (guardedBy guard) onlyPath).conditions = some total)
    (hholds : holds asciiData (pathValue ρ) guard = true) :
    ¬Faithful asciiData (guardedBy guard) onlyPath values ρ := by
  rintro ⟨total', htotal', hiff, -⟩
  cases htotal.symm.trans htotal'
  refine hpos (hiff.2 fun guard' hguard => ?_)
  rw [List.mem_singleton.1 hguard]
  exact hholds

theorem not_faithful_negatedGuard : (∀ guard ∈ (guardedBy negatedGuard).guards, IsGuard asciiData guard) ∧
    onlyPath ∈ (guardedBy negatedGuard).candidatePaths ∧
    (∀ comparison ∈ (guardedBy negatedGuard).comparisons, Covered zeroValues comparison) ∧
    ¬Faithful asciiData (guardedBy negatedGuard) onlyPath zeroValues fun _ => 0 := by
  refine ⟨?_, List.mem_singleton_self _, ?_, ?_⟩
  · intro guard hguard
    rw [List.mem_singleton.1 hguard]
    exact .not isGuard_above
  · intro comparison hcomparison
    rw [List.mem_singleton.1 hcomparison]
    exact covered_above
  · exact not_faithful_of_pos one_ne_zero (by decide +kernel) (by decide +kernel)

/-- The member `X` of `A`. -/
def memberX : Expression where
  kind := .memberAccess (some "X".toList)
  operands := [variableOf "A".toList, { kind := .variable "FB.X".toList }]

/-- It is observed as the variable `X`. -/
example : ¬Faithful asciiData (guardedBy (above memberX)) onlyPath zeroValues
    fun path => if path = "P.A.X".toList then 9 else 0 :=
  not_faithful_of_pos one_ne_zero (by decide +kernel) (by decide +kernel)

end SemantiST.Goals
