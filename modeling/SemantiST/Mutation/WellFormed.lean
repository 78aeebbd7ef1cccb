import SemantiST.Mutation.Extension

/-!
# Mutated seeds

Guided and random mutations give well-formed seeds.
-/

namespace SemantiST.Mutation

open Lib Lib.Drawn Semantic

/-! ## Mutated seeds are well formed -/

section Guided

variable {F : Type} (fl : Floats F) {maxCycles rounds desired : ℕ} {seed : CycleAwareSeed} (context : TargetContext)
  (ablation : SemantiSTAblation)

/-- A seed that is there is well formed. -/
def Steps (maxCycles : ℕ) (old : CycleAwareSeed) (new : Option CycleAwareSeed) : Prop :=
  ∀ seed ∈ new, Step maxCycles old seed

/-- A seed that is there is well formed, and numbered from zero on. -/
def NumberedSteps (maxCycles : ℕ) (old : CycleAwareSeed) (new : Option CycleAwareSeed) : Prop :=
  ∀ seed ∈ new, Step maxCycles old seed ∧ Numbered seed

theorem numberedSteps_none : NumberedSteps maxCycles seed none := fun _ h => nomatch h

theorem NumberedSteps.attempt {first second : Drawn (Option CycleAwareSeed)}
    (h : Always (NumberedSteps maxCycles seed) first) (h' : Always (NumberedSteps maxCycles seed) second) :
    Always (NumberedSteps maxCycles seed) (attempt first second) := by
  refine h.bind fun changed hchanged => ?_
  cases changed with
  | some new => exact always_pure hchanged
  | none => exact h'

theorem attempt_rewrites {records : List StRecord} {first second : Drawn (Option (List StRecord))}
    (h : Always (Rewrites records) first) (h' : Always (Rewrites records) second) :
    Always (Rewrites records) (attempt first second) := by
  refine h.bind fun changed hchanged => ?_
  cases changed with
  | some new => exact always_pure hchanged
  | none => exact h'

theorem normalize_numberedSteps {mutate : Drawn (Option CycleAwareSeed)} (h : Always (Steps maxCycles seed) mutate) :
    Always (NumberedSteps maxCycles seed) (Option.map normalizeCycleIds <$> mutate) := by
  refine h.map fun new hnew normalized hnormalized => ?_
  obtain ⟨mutated, hmutated, rfl⟩ := Option.map_eq_some_iff.1 hnormalized
  have hstep := hnew mutated hmutated
  exact ⟨hstep.trans (step_normalizeCycleIds hstep.filled), numbered_normalizeCycleIds⟩

theorem copyOf_getD_lists {lists : List (List StRecord)} (hcopies : ∀ l ∈ lists, CopyOf seed l) {place : ℕ}
    (h : place < lists.length) : CopyOf seed (lists.getD place []) := by
  rw [List.getD_eq_getElem?_getD, List.getElem?_eq_getElem h]
  exact hcopies _ (List.getElem_mem h)

/-- The sequence with other copies. -/
theorem numberedSteps_lists (hfilled : Filled seed) {lists : List (List StRecord)} (hcopies : ∀ l ∈ lists, CopyOf seed l)
    (hcount : lists.length ≤ max seed.cycles.size maxCycles) (hkept : 0 < seed.cycles.size → 0 < lists.length) :
    NumberedSteps maxCycles seed (some { seed with cycles := numbered lists }) := by
  intro new hnew
  obtain rfl := Option.some.inj hnew
  exact ⟨step_numbered hfilled hcopies hcount hkept, numbered_of_lists lists⟩

theorem expandStatePrefix_numberedSteps (hfilled : Filled seed) :
    Always (NumberedSteps maxCycles seed) (expandStatePrefix maxCycles seed) := by
  unfold expandStatePrefix
  refine always_ite ?_ fun hroom => ?_
  · intro _
    exact always_pure numberedSteps_none
  · have hlength : (cycleLists seed.cycles).length = seed.cycles.size := length_cycleLists
    refine (always_belowOrZero (by omega)).bind fun source hsource => always_pure ?_
    have hplace : source + 1 ≤ (cycleLists seed.cycles).length := by omega
    have hcopies : ∀ l ∈ cycleLists seed.cycles, CopyOf seed l := fun l h => copyOf_cycleLists h
    have hcopy := copyOf_getD_lists hcopies hplace
    apply numberedSteps_lists hfilled
    · intro l hl
      rcases (List.mem_insertIdx hplace).1 hl with rfl | hl
      · exact hcopy
      · exact copyOf_cycleLists hl
    · rw [List.length_insertIdx_of_le_length hplace]
      omega
    · rw [List.length_insertIdx_of_le_length hplace]
      omega

theorem mutateTransitionPrefix_steps (hfilled : Filled seed) (transferFields : List (List ControllableSeedField)) :
    Always (Steps maxCycles seed) (mutateTransitionPrefix seed transferFields) := by
  have hnone : Steps maxCycles seed none := fun _ h => nomatch h
  unfold mutateTransitionPrefix
  refine always_ite (fun _ => always_pure hnone) fun _ => ?_
  refine always_bind fun transfer => always_bind fun place => ?_
  split
  · exact always_pure hnone
  · rename_i id records hentry
    have hrecords := Std.ExtTreeMap.mem_toList_iff_getElem?_eq_some.1 (List.mem_of_getElem? hentry)
    have hrewrites : Always (Rewrites records) (mutateControllableSeedField records transfer) :=
      mutateDrawnField_rewrites records transfer mutateFieldRecord_rewrites
    refine hrewrites.map fun new hnew mutated hmutated => ?_
    obtain ⟨records', hrecords', rfl⟩ := Option.map_eq_some_iff.1 hmutated
    have hmem : id ∈ seed.cycles := by
      rw [Std.ExtTreeMap.mem_iff_isSome_getElem?, hrecords]
      rfl
    exact step_insert hfilled ⟨id, records, hrecords, hnew records' hrecords'⟩ (Or.inl hmem)

theorem mutateTerminal_numberedSteps (hfilled : Filled seed) :
    Always (NumberedSteps maxCycles seed) (mutateTerminal fl seed context) := by
  unfold mutateTerminal
  split
  · exact always_pure numberedSteps_none
  · rename_i id records hlast
    have hrecords := Std.ExtTreeMap.mem_toList_iff_getElem?_eq_some.1 (List.mem_of_getLast? hlast)
    have hmem : id ∈ seed.cycles := by
      rw [Std.ExtTreeMap.mem_iff_isSome_getElem?, hrecords]
      rfl
    have hgoal : Rewrites records (context.goalExpression.bind fun expression =>
        if (mutateExpressionGoal fl context.valueDefinitions records expression true 0).2 then
          some (mutateExpressionGoal fl context.valueDefinitions records expression true 0).1 else none) := by
      intro edited hedited
      obtain ⟨expression, -, hedited⟩ := Option.bind_eq_some_iff.1 hedited
      obtain ⟨-, hsome⟩ := Option.ite_none_right_eq_some.1 hedited
      obtain rfl := Option.some.inj hsome
      exact (mutateGoalWithin_sound fl context.valueDefinitions 17 records expression true).edited.rewritten
    have hattempt := attempt_rewrites (mutateHazardGoal_rewrites records context) (always_pure hgoal)
    refine hattempt.map fun new hnew mutated hmutated => ?_
    obtain ⟨records', hrecords', rfl⟩ := Option.map_eq_some_iff.1 hmutated
    have hstep : Step maxCycles seed { seed with cycles := seed.cycles.insert id records' } :=
      step_insert hfilled ⟨id, records, hrecords, hnew records' hrecords'⟩ (Or.inl hmem)
    exact ⟨hstep.trans (step_normalizeCycleIds hstep.filled), numbered_normalizeCycleIds⟩

theorem mutateSequence_numberedSteps (hfilled : Filled seed) :
    Always (NumberedSteps maxCycles seed) (mutateSequence maxCycles seed context) := by
  have hlength : (cycleLists seed.cycles).length = seed.cycles.size := length_cycleLists
  have hcopies : ∀ l ∈ cycleLists seed.cycles, CopyOf seed l := fun l h => copyOf_cycleLists h
  unfold mutateSequence
  refine always_ite (fun _ => always_pure numberedSteps_none) fun hsome => ?_
  have hpos : 0 < (cycleLists seed.cycles).length := by
    rw [List.length_pos_iff]
    exact fun hnil => hsome (Or.inr (hnil ▸ rfl))
  refine always_bind fun operation => (always_belowOrZero hpos).bind fun selected hselected => ?_
  have hcopy := copyOf_getD_lists hcopies hselected
  dsimp only
  split
  · rename_i hclone
    refine always_pure (numberedSteps_lists hfilled ?_ ?_ ?_)
    · intro l hl
      rcases (List.mem_insertIdx (by omega)).1 hl with rfl | hl
      · exact hcopy
      · exact hcopies l hl
    · rw [List.length_insertIdx_of_le_length (by omega)]
      omega
    · rw [List.length_insertIdx_of_le_length (by omega)]
      omega
  · split
    · refine always_pure (numberedSteps_lists hfilled ?_ ?_ ?_)
      · intro l hl
        rcases List.mem_append.1 hl with hl | hl
        · exact hcopies l hl
        · rw [List.mem_singleton.1 hl]
          exact hcopy
      · rw [List.length_append, List.length_singleton]
        omega
      · rw [List.length_append]
        omega
    · split
      · rename_i hmany
        refine always_pure (numberedSteps_lists hfilled ?_ ?_ ?_)
        · exact fun l hl => hcopies l (List.mem_of_mem_eraseIdx hl)
        · rw [List.length_eraseIdx_of_lt hselected]
          omega
        · rw [List.length_eraseIdx_of_lt hselected]
          omega
      · have hrewrites : Always (Rewrites ((cycleLists seed.cycles).getD selected []))
            (mutateControllableSeedField ((cycleLists seed.cycles).getD selected []) context.controllableSeedFields) :=
          mutateDrawnField_rewrites _ _ mutateFieldRecord_rewrites
        refine (hrewrites.map fun new hnew => ?_).bind (P := fun lists => ∀ l ∈ lists, ∃ records',
          Rewritten ((cycleLists seed.cycles).getD selected []) records' ∧ l = (cycleLists seed.cycles).set selected records')
          fun lists hlists => always_pure ?_
        · intro l hl
          obtain ⟨records', hrecords', rfl⟩ := Option.map_eq_some_iff.1 hl
          exact ⟨records', hnew records' hrecords', rfl⟩
        · intro new hnew
          obtain ⟨l, hl, rfl⟩ := Option.map_eq_some_iff.1 hnew
          obtain ⟨records', hrewritten, rfl⟩ := hlists l hl
          refine numberedSteps_lists hfilled ?_ ?_ ?_ _ rfl
          · intro l hl
            rcases List.mem_or_eq_of_mem_set hl with hl | rfl
            · exact hcopies l hl
            · obtain ⟨id, records, hrecords, hold⟩ := hcopy
              exact ⟨id, records, hrecords, hold.trans hrewritten⟩
          · rw [List.length_set]
            omega
          · rw [List.length_set]
            omega

theorem semanticMutateHinted_numberedSteps (hfilled : Filled seed) :
    Always (NumberedSteps maxCycles seed) (semanticMutateHinted fl maxCycles seed context ablation) := by
  have hnone : Always (NumberedSteps maxCycles seed) (pure none) := always_pure numberedSteps_none
  have htransition := normalize_numberedSteps
    (@mutateTransitionPrefix_steps maxCycles seed hfilled context.transitionSeedFields)
  unfold semanticMutateHinted
  refine NumberedSteps.attempt ?_ <| NumberedSteps.attempt ?_ <| NumberedSteps.attempt ?_ <| NumberedSteps.attempt ?_ ?_
  · refine always_ite (fun _ => always_bind fun grow => always_ite ?_ fun _ => hnone) fun _ => hnone
    intro _
    exact expandStatePrefix_numberedSteps hfilled
  · refine always_ite (fun _ => always_bind fun guide => always_ite ?_ fun _ => hnone) fun _ => hnone
    intro _
    exact htransition
  · exact mutateTerminal_numberedSteps fl context hfilled
  · exact always_ite (fun _ => htransition) fun _ => hnone
  · exact mutateSequence_numberedSteps context hfilled

/-- Adding cycles keeps a seed well formed. -/
theorem ensureCycleHint_step (hfilled : Filled seed) (hmax : 0 < maxCycles) {hinted : CycleAwareSeed}
    (h : ensureCycleHint maxCycles rounds seed desired = some hinted) : Step maxCycles seed hinted := by
  have hbase : Step maxCycles seed (baseCycles seed) := by
    unfold baseCycles
    split
    · rename_i hzero
      have hnone (id : ℕ) : seed.cycles[id]? = none := by
        rw [Std.ExtTreeMap.eq_empty_iff_size_eq_zero.2 hzero]
        exact Std.ExtTreeMap.getElem?_empty
      have hget {id : ℕ} {records : List StRecord} (h : (seed.cycles.insert 0
          (if seed.shared.isEmpty = true then [defaultRecord] else seed.shared))[id]? = some records) :
          records = if seed.shared.isEmpty = true then [defaultRecord] else seed.shared := by
        rw [getElem?_insert_eq, hnone] at h
        split at h
        · exact (Option.some.inj h).symm
        · cases h
      refine ⟨Rewritten.refl _, ?_, ?_, ?_, ?_, fun hpos => absurd hpos (by omega)⟩
      · intro id records h
        rw [hget h]
        split
        · exact List.cons_ne_nil _ _
        · rename_i hshared
          exact fun hnil => hshared (hnil ▸ rfl)
      · rintro record ⟨id, records, h, hmem⟩
        rw [hget h] at hmem
        refine ⟨record, Or.inr ⟨hzero, ?_⟩, Rewrite.refl record⟩
        split at hmem
        · exact Or.inr (List.mem_singleton.1 hmem)
        · exact Or.inl hmem
      · have hsize : (seed.cycles.insert 0
          (if seed.shared.isEmpty = true then [defaultRecord] else seed.shared)).size ≤ seed.cycles.size + 1 :=
          Std.ExtTreeMap.size_insert_le
        dsimp only
        omega
      · intro k hk
        rcases mem_insert_iff.1 hk with rfl | hk
        · exact Or.inr (Or.inl (Nat.zero_le _))
        · exact Or.inl hk
    · exact Step.refl hfilled
  have hpos : 0 < (baseCycles seed).cycles.size := by
    unfold baseCycles
    split
    · exact size_pos_of_getElem? (getElem?_insert_eq.trans (if_pos rfl))
    · omega
  have hloop : Loop (extendStep (min (max desired 1) maxCycles)) (baseCycles seed) hinted :=
    exists_loopWithin_iff.1 ⟨rounds, h⟩
  refine (hloop.invariant (P := fun t => Step maxCycles seed t ∧ 0 < t.cycles.size) ?_ ⟨hbase, hpos⟩).1
  rintro t t' ⟨ht, htpos⟩ hstep
  obtain ⟨hlt, rfl⟩ := extendStep_eq_some hstep
  obtain ⟨records, hrecords⟩ := exists_of_mem_keys (Std.ExtTreeMap.mem_keys.2 (topId_mem htpos))
  have hlast : lastRecords t.cycles = records := by
    rw [lastRecords, maxKey?_eq_topId htpos, Option.bind_some, hrecords]
    rfl
  have hadded : Step maxCycles t { t with cycles := t.cycles.insert (nextId t.cycles) (lastRecords t.cycles) } :=
    step_insert ht.filled (hlast ▸ copyOf_self hrecords) (Or.inr ⟨by omega, nextId_le⟩)
  exact ⟨ht.trans hadded, hadded.kept htpos⟩

theorem semanticMutateCycleSeed_step (hfilled : Filled seed) (hmax : 0 < maxCycles) :
    Always (fun result => ∀ mutated ∈ result, Step maxCycles seed mutated.1 ∧ (mutated.2 = true → Numbered mutated.1))
      (semanticMutateCycleSeed fl maxCycles seed context ablation rounds) := by
  unfold semanticMutateCycleSeed
  apply always_ite
  · intro _
    apply always_pure
    intro mutated h
    obtain rfl := Option.some.inj h
    exact ⟨Step.refl hfilled, nofun⟩
  · intro _
    split
    · exact always_pure fun _ h => nomatch h
    · rename_i hinted hensure
      have hhint : Step maxCycles seed hinted := ensureCycleHint_step hfilled hmax hensure
      refine (semanticMutateHinted_numberedSteps fl context ablation hhint.filled).bind fun new hnew => always_pure ?_
      intro mutated h
      obtain rfl := Option.some.inj h
      cases new with
      | none => exact ⟨hhint, nofun⟩
      | some new => exact ⟨hhint.trans (hnew new rfl).1, fun _ => (hnew new rfl).2⟩

theorem filled_mutatedSeed (hfilled : Filled seed) : Filled (mutatedSeed seed) := by
  unfold mutatedSeed
  split
  · intro id records h
    dsimp only at h
    rw [getElem?_insert_eq] at h
    split at h
    · obtain rfl := Option.some.inj h
      exact List.cons_ne_nil _ _
    · exact hfilled id records h
  · exact hfilled

theorem finishMutation_step {guided : Option (CycleAwareSeed × Bool)} (hguided : ∀ mutated ∈ guided,
    Step maxCycles seed mutated.1 ∧ (mutated.2 = true → Numbered mutated.1)) :
    Always (NumberedSteps maxCycles seed) (finishMutation maxCycles guided) := by
  unfold finishMutation
  split
  · exact always_pure numberedSteps_none
  · rename_i new
    obtain ⟨hstep, hnumbered⟩ := hguided _ rfl
    apply always_pure
    intro mutated h
    obtain rfl := Option.some.inj h
    exact ⟨hstep, hnumbered rfl⟩
  · rename_i new
    obtain ⟨hstep, -⟩ := hguided _ rfl
    refine (mutateCycleAwareSeed_step hstep.filled).map fun last hlast mutated h => ?_
    obtain rfl := Option.some.inj h
    exact ⟨hstep.trans hlast.1, hlast.2⟩

/-- **A mutated seed is well formed.** -/
theorem mutateCycles_step (hfilled : Filled seed) (hmax : 0 < maxCycles) :
    Always (NumberedSteps maxCycles (mutatedSeed seed)) (mutateCycles fl maxCycles seed context ablation rounds) := by
  have hfilled := filled_mutatedSeed hfilled
  unfold mutateCycles
  refine always_bind fun semantic => ?_
  dsimp only
  split
  · refine (semanticMutateCycleSeed_step fl context ablation hfilled hmax).bind fun guided hguided => ?_
    exact finishMutation_step hguided
  · have hsame : ∀ mutated ∈ some (mutatedSeed seed, false),
        Step maxCycles (mutatedSeed seed) mutated.1 ∧ (mutated.2 = true → Numbered mutated.1) := by
      intro mutated h
      obtain rfl := Option.some.inj h
      exact ⟨Step.refl hfilled, nofun⟩
    exact (always_pure hsame).bind fun guided hguided => finishMutation_step hguided

/-- There is a mutated seed when the hint, where it is used, can be followed. -/
theorem exists_mutateCycles_iff (draws : Draws) :
    (∃ rounds, (mutateCycles fl maxCycles seed context ablation rounds draws).1.isSome = true) ↔
      ((useSemantic context ablation draws).1 = true → ∃ rounds,
        (ensureCycleHint maxCycles rounds (mutatedSeed seed) (max (context.cycleHint.getD 3) 1)).isSome = true) := by
  have hfinish (guided : Option (CycleAwareSeed × Bool)) (draws : Draws) :
      (finishMutation maxCycles guided draws).1.isSome = guided.isSome := by
    unfold finishMutation
    split <;> rfl
  rcases hsemantic : useSemantic context ablation draws with ⟨semantic, rest⟩
  have hrun (rounds : ℕ) : (mutateCycles fl maxCycles seed context ablation rounds draws).1.isSome =
      ((if semantic then semanticMutateCycleSeed fl maxCycles (mutatedSeed seed) context ablation rounds
        else pure (some (mutatedSeed seed, false))) rest).1.isSome := by
    have hbind : mutateCycles fl maxCycles seed context ablation rounds draws =
        ((if semantic then semanticMutateCycleSeed fl maxCycles (mutatedSeed seed) context ablation rounds
          else pure (some (mutatedSeed seed, false))) >>= finishMutation maxCycles) rest := by
      have hdrawn : mutateCycles fl maxCycles seed context ablation rounds draws =
          (fun drawn : Bool × Draws => (if drawn.1 then
              semanticMutateCycleSeed fl maxCycles (mutatedSeed seed) context ablation rounds >>= finishMutation maxCycles
            else pure (some (mutatedSeed seed, false)) >>= finishMutation maxCycles) drawn.2)
            (useSemantic context ablation draws) := rfl
      rw [hdrawn, hsemantic]
      cases semantic <;> rfl
    rw [hbind]
    exact hfinish _ _
  simp only [hrun]
  cases semantic with
  | false => exact ⟨fun _ => nofun, fun _ => ⟨0, rfl⟩⟩
  | true =>
    have htarget : context.targetId.isNone = false := by
      unfold useSemantic at hsemantic
      split at hsemantic
      · rename_i hon
        rw [← Option.not_isSome, hon.2]
        rfl
      · cases congrArg Prod.fst hsemantic
    have hhint (rounds : ℕ) :
        (semanticMutateCycleSeed fl maxCycles (mutatedSeed seed) context ablation rounds rest).1.isSome =
          (ensureCycleHint maxCycles rounds (mutatedSeed seed) (max (context.cycleHint.getD 3) 1)).isSome := by
      rw [semanticMutateCycleSeed, if_neg (by rw [htarget]; exact Bool.false_ne_true)]
      cases ensureCycleHint maxCycles rounds (mutatedSeed seed) (max (context.cycleHint.getD 3) 1) <;> rfl
    simp only [if_true, hhint]
    exact ⟨fun h _ => h, fun h => h trivial⟩

/-- **What is well formed for the harness.**  The numbers are zero to one less than how many there are, which are not
too many, and names and types come from the cycles of the input, or from the default where it has none. -/
structure WellFormed (maxCycles : ℕ) (input seed : CycleAwareSeed) : Prop where
  numbers : ∀ id : ℕ, id ∈ seed.cycles ↔ id < seed.cycles.size
  pos : 1 ≤ seed.cycles.size
  count : seed.cycles.size ≤ max input.cycles.size maxCycles
  origin : ∀ record, InCycle seed record → ∃ record',
    (InCycle input record' ∨ (input.cycles.size = 0 ∧ record' = defaultRecord)) ∧
      record.name = record'.name ∧ record.ty = record'.ty

theorem parseFbMaxCycles_pos (limit : Option Text) : 0 < parseFbMaxCycles limit := by
  have hpos : 0 < ((limit.bind fun value => parseUnsigned u64Max (trim isWhitespace value)).filter (0 < ·)).getD
      defaultFbMaxCycles := by
    cases h : (limit.bind fun value => parseUnsigned u64Max (trim isWhitespace value)).filter (0 < ·) with
    | none => decide
    | some n => exact of_decide_eq_true (Option.filter_eq_some_iff.1 h).2
  exact Nat.lt_min.2 ⟨hpos, by decide⟩

theorem wellFormed_of_step {new : CycleAwareSeed} (hmax : 0 < maxCycles)
    (hstep : Step maxCycles (mutatedSeed seed) new) (hnumbered : Numbered new) : WellFormed maxCycles seed new := by
  have hpos : 0 < (mutatedSeed seed).cycles.size := by
    unfold mutatedSeed
    split
    · exact size_pos_of_getElem? (getElem?_insert_eq.trans (if_pos rfl))
    · omega
  have hsize : (mutatedSeed seed).cycles.size ≤ max seed.cycles.size maxCycles := by
    unfold mutatedSeed
    split
    · have hsize : (seed.cycles.insert 0 [defaultRecord]).size ≤ seed.cycles.size + 1 :=
        Std.ExtTreeMap.size_insert_le
      dsimp only
      omega
    · exact Nat.le_max_left _ _
  have hcount := hstep.count
  refine ⟨hnumbered, hstep.kept hpos, by omega, ?_⟩
  intro record hrecord
  obtain ⟨record', havailable, hrewrite⟩ := hstep.origin record hrecord
  refine ⟨record', ?_, hrewrite.name, hrewrite.ty⟩
  have hcycle : InCycle (mutatedSeed seed) record' := havailable.resolve_right fun h => by omega
  unfold mutatedSeed at hcycle
  split at hcycle
  · rename_i hzero
    obtain ⟨id, records, hrecords, hmem⟩ := hcycle
    dsimp only at hrecords
    rw [Std.ExtTreeMap.eq_empty_iff_size_eq_zero.2 hzero, getElem?_insert_eq, Std.ExtTreeMap.getElem?_empty] at hrecords
    split at hrecords
    · obtain rfl := Option.some.inj hrecords
      exact Or.inr ⟨hzero, List.mem_singleton.1 hmem⟩
    · cases hrecords
  · exact Or.inl hcycle

/-- **A parsed seed is mutated to a well-formed one**, unless a hint asks for more cycles than there are numbers for. -/
theorem mutateCycles_wellFormed_iff (limit : Option Text) (text : Text) (draws : Draws) :
    (∃ seed, (∃ rounds, (mutateCycles fl (parseFbMaxCycles limit) (parseCycleAwareSeed text) context ablation rounds
        draws).1 = some seed) ∧ WellFormed (parseFbMaxCycles limit) (parseCycleAwareSeed text) seed) ↔
      ((useSemantic context ablation draws).1 = true →
        min (max (context.cycleHint.getD 3) 1) (parseFbMaxCycles limit) ≤
          capacity (mutatedSeed (parseCycleAwareSeed text)).cycles) := by
  have hmax := parseFbMaxCycles_pos limit
  have hbounded : Bounded (mutatedSeed (parseCycleAwareSeed text)).cycles := by
    unfold mutatedSeed
    split
    · exact bounded_insert (bounded_parse text) (Nat.zero_le _)
    · exact bounded_parse text
  have hbase : baseCycles (mutatedSeed (parseCycleAwareSeed text)) = mutatedSeed (parseCycleAwareSeed text) := by
    refine if_neg fun hzero => ?_
    unfold mutatedSeed at hzero
    split at hzero
    · have := size_pos_of_getElem? (getElem?_insert_eq (m := (parseCycleAwareSeed text).cycles) (k := 0)
        (v := [defaultRecord]) |>.trans (if_pos rfl))
      dsimp only at hzero
      omega
    · contradiction
  have hexists : (∃ rounds, (mutateCycles fl (parseFbMaxCycles limit) (parseCycleAwareSeed text) context
      ablation rounds draws).1.isSome = true) ↔ _ := exists_mutateCycles_iff fl context ablation draws
  rw [exists_ensureCycleHint_iff hbounded, hbase, Nat.max_eq_left (Nat.le_max_right _ 1)] at hexists
  rw [← hexists]
  constructor
  · rintro ⟨seed, ⟨rounds, h⟩, -⟩
    exact ⟨rounds, Option.isSome_iff_exists.2 ⟨seed, h⟩⟩
  · rintro ⟨rounds, h⟩
    obtain ⟨seed, hseed⟩ := Option.isSome_iff_exists.1 h
    obtain ⟨hstep, hnumbered⟩ := mutateCycles_step fl context ablation (filled_parse text) hmax draws seed hseed
    exact ⟨seed, ⟨rounds, hseed⟩, wellFormed_of_step hmax hstep hnumbered⟩

end Guided

/-- Whole numbers in place of floating-point ones. -/
def wholeNumbers : Floats ℤ where
  ofInt := id
  parse := parseWideInteger
  single := id
  isFinite := fun _ => true
  neg := (- ·)
  add := (· + ·)
  sub := (· - ·)
  mul := (· * ·)
  div := Int.tdiv
  compare := fun a b => some (compare a b)
  nextDown := (· - 1)
  nextUp := (· + 1)
  singleDown := (· - 1)
  singleUp := (· + 1)
  text := intText
  singleText := intText
  plain_text := plain_intText
  plain_singleText := plain_intText

/-- Guided by a target, the seed with the last machine integer as its number is never mutated. -/
theorem mutateCycles_never_ends :
    ¬ ∃ seed, (∃ rounds, (mutateCycles wholeNumbers (parseFbMaxCycles none)
        (parseCycleAwareSeed "18446744073709551615.X,INT,1".toList) { targetId := some "T".toList } {} rounds
        fun _ => 1).1 = some seed) ∧
      WellFormed (parseFbMaxCycles none) (parseCycleAwareSeed "18446744073709551615.X,INT,1".toList) seed := by
  rintro ⟨seed, ⟨rounds, h⟩, -⟩
  obtain ⟨hsize, hcapacity⟩ := capacity_lastId
  have hended := (exists_mutateCycles_iff wholeNumbers { targetId := some "T".toList } {} fun _ => 1).1
    ⟨rounds, Option.isSome_iff_exists.2 ⟨seed, h⟩⟩ (by decide)
  rw [mutatedSeed, if_neg (by omega), exists_ensureCycleHint_iff (bounded_parse _), baseCycles, if_neg (by omega),
    hcapacity] at hended
  exact absurd hended (by decide)

end SemantiST.Mutation
