import SemantiST.Corpus.Frames

/-!
# The corpus's parser as a list of assignments

The records of a text that the Python parser accepts, and the testcase they say.
-/

namespace SemantiST.Corpus

open Lib

variable {u : UnicodeData} {abi : TargetAbi} {text : Text} {st st' : ParseState}
  {rs : List Assignment} {a : Assignment} {n i : ℕ}

/-! ## One record -/

section Record

variable {line name ty value field : Text} {cycle : ℕ}

theorem mem_of_byUpperName {params : List Param} {key : Text} {p : Param}
    (h : byUpperName u params key = some p) : p ∈ params ∧ u.upperText p.name = key := by
  refine ⟨?_, by simpa using List.find?_some h⟩
  have := List.mem_of_find?_eq_some h
  rwa [List.mem_reverse] at this

theorem checkTypeToken_eq_ok {token expected : Text} :
    checkTypeToken u token expected name = .ok () ↔ token = [] ∨ token = u.upperText expected := by
  unfold checkTypeToken
  rw [ite_error_eq_ok]
  simp only [and_true]
  tauto

theorem splitRecord_eq_ok (h : splitRecord u line = .ok (name, ty, value)) :
    ∃ n rest t v, splitOnce ',' line = some (n, rest) ∧ splitOnce ',' rest = some (t, v) ∧
      name = trim isSpace n ∧ name ≠ [] ∧ ty = u.upperText (trim isSpace t) ∧
      value = trim isSpace v := by
  unfold splitRecord at h
  split at h
  · cases h
  · rename_i n rest hline
    split at h
    · cases h
    · rename_i t v hrest
      obtain ⟨hne, h⟩ := ite_error_eq_ok.1 h
      rw [Except.ok.injEq, Prod.mk.injEq, Prod.mk.injEq] at h
      obtain ⟨rfl, rfl, rfl⟩ := h
      exact ⟨n, rest, t, v, hline, hrest, rfl, hne, rfl, rfl⟩

/-- A name with a frame number, and its parts. -/
theorem cyclePrefix_eq_some {digits : Text} (h : cyclePrefix u name = some (digits, field)) :
    name = digits ++ '.' :: field ∧ digits ≠ [] ∧ ∀ c ∈ digits, (u.decimal c).isSome := by
  unfold cyclePrefix at h
  simp only at h
  split at h
  · rename_i rest hdrop
    split at h
    · rename_i hne
      rw [Option.some.injEq, Prod.mk.injEq] at h
      obtain ⟨rfl, rfl⟩ := h
      refine ⟨?_, hne.1, fun c hc =>
        List.mem_takeWhile_imp (p := fun c => (u.decimal c).isSome) hc⟩
      have htake : name.take (name.takeWhile fun c => (u.decimal c).isSome).length =
          name.takeWhile fun c => (u.decimal c).isSome :=
        List.prefix_iff_eq_take.1 (List.takeWhile_prefix _) |>.symm
      have hname := List.take_append_drop (name.takeWhile fun c => (u.decimal c).isSome).length name
      rw [htake, hdrop] at hname
      exact hname.symm
    · cases h
  · cases h

/-- A record without a frame number. -/
theorem readShared_eq_ok : readShared u abi field ty value = .ok a ↔
    (u.upperText field = reservedInit ∧ (ty = [] ∨ ty = u.upperText "ENUM".toList) ∧
      value = "cold".toList ∧ a = .init) ∨
    (u.upperText field ≠ reservedInit ∧ ∃ param,
      byUpperName u abi.sharedParams (u.upperText field) = some param ∧
      (ty = [] ∨ ty = u.upperText param.spec.typeToken) ∧ a = .shared param.name value) := by
  unfold readShared
  by_cases hinit : u.upperText field = reservedInit
  · simp only [hinit, if_true, true_and, ne_eq, not_true_eq_false, false_and, or_false]
    rw [bind_eq_ok]
    constructor
    · rintro ⟨⟨⟩, hcheck, h⟩
      obtain ⟨hvalue, h⟩ := ite_error_eq_ok.1 h
      exact ⟨checkTypeToken_eq_ok.1 hcheck, not_not.1 hvalue, (Except.ok.inj h).symm⟩
    · rintro ⟨hty, hvalue, rfl⟩
      exact ⟨(), checkTypeToken_eq_ok.2 hty, ite_error_eq_ok.2 ⟨not_not.2 hvalue, rfl⟩⟩
  · simp only [hinit, if_false, false_and, ne_eq, not_false_eq_true, true_and, false_or]
    cases byUpperName u abi.sharedParams (u.upperText field) with
    | none =>
      simp only [reduceCtorEq, false_and, exists_false, iff_false]
      split <;> exact nofun
    | some param =>
      simp only [Option.some.injEq, exists_eq_left', bind_eq_ok]
      constructor
      · rintro ⟨⟨⟩, hcheck, h⟩
        exact ⟨checkTypeToken_eq_ok.1 hcheck, (Except.ok.inj h).symm⟩
      · rintro ⟨hty, rfl⟩
        exact ⟨(), checkTypeToken_eq_ok.2 hty, rfl⟩

/-- A record of a frame. -/
theorem readFrame_eq_ok : readFrame u abi cycle field ty value = .ok a ↔
    (u.upperText field = reservedDt ∧ (ty = [] ∨ ty = u.upperText "TIME".toList) ∧
      ∃ dt, parseDt u value = .ok dt ∧ a = .dt cycle dt) ∨
    (u.upperText field ≠ reservedDt ∧ ∃ param,
      byUpperName u abi.frameActionParams (u.upperText field) = some param ∧
      (ty = [] ∨ ty = u.upperText param.spec.typeToken) ∧ a = .field cycle param.name value) := by
  unfold readFrame
  by_cases hdt : u.upperText field = reservedDt
  · simp only [hdt, if_true, true_and, ne_eq, not_true_eq_false, false_and, or_false]
    rw [bind_eq_ok]
    constructor
    · rintro ⟨⟨⟩, hcheck, h⟩
      obtain ⟨dt, hparse, h⟩ := bind_eq_ok.1 h
      exact ⟨checkTypeToken_eq_ok.1 hcheck, dt, hparse, (Except.ok.inj h).symm⟩
    · rintro ⟨hty, dt, hparse, rfl⟩
      exact ⟨(), checkTypeToken_eq_ok.2 hty, bind_eq_ok.2 ⟨dt, hparse, rfl⟩⟩
  · simp only [hdt, if_false, false_and, ne_eq, not_false_eq_true, true_and, false_or]
    cases byUpperName u abi.frameActionParams (u.upperText field) with
    | none =>
      simp only [reduceCtorEq, false_and, exists_false, iff_false]
      split <;> exact nofun
    | some param =>
      simp only [Option.some.injEq, exists_eq_left', bind_eq_ok]
      constructor
      · rintro ⟨⟨⟩, hcheck, h⟩
        exact ⟨checkTypeToken_eq_ok.1 hcheck, (Except.ok.inj h).symm⟩
      · rintro ⟨hty, rfl⟩
        exact ⟨(), checkTypeToken_eq_ok.2 hty, rfl⟩

/-- **What a line that is read holds**: a record with or without a frame number. -/
theorem readLine_eq_some {raw : Text} (h : readLine u abi raw = .ok (some a)) :
    ∃ name ty value, trim isSpace raw ≠ [] ∧
      splitRecord u (trim isSpace raw) = .ok (name, ty, value) ∧
      ((cyclePrefix u name = none ∧ readShared u abi name ty value = .ok a) ∨
        ∃ digits field cycle, cyclePrefix u name = some (digits, field) ∧
          u.int 10 digits = some cycle ∧ readFrame u abi cycle.toNat field ty value = .ok a) := by
  unfold readLine at h
  simp only at h
  split at h
  · cases h
  · rename_i hne
    obtain ⟨⟨name, ty, value⟩, hsplit, h⟩ := bind_eq_ok.1 h
    obtain ⟨⟨cycle, field⟩, hcycle, h⟩ := bind_eq_ok.1 h
    refine ⟨name, ty, value, hne, hsplit, ?_⟩
    have hmap {x : Except FrameFormatError Assignment} (hx : some <$> x = .ok (some a)) : x = .ok a := by
      cases x with
      | error e => cases hx
      | ok b =>
        obtain rfl := Option.some.inj (Except.ok.inj hx)
        rfl
    unfold splitCycleName at hcycle
    cases hpre : cyclePrefix u name with
    | none =>
      rw [hpre] at hcycle
      obtain ⟨rfl, rfl⟩ := Prod.mk.inj (Except.ok.inj hcycle)
      exact .inl ⟨rfl, hmap h⟩
    | some p =>
      rcases p with ⟨digits, field'⟩
      rw [hpre] at hcycle
      simp only at hcycle
      split at hcycle
      · rename_i n hn
        obtain ⟨rfl, rfl⟩ := Prod.mk.inj (Except.ok.inj hcycle)
        exact .inr ⟨digits, field', n, rfl, hn, hmap h⟩
      · cases hcycle

theorem readLine_eq_none {raw : Text} (h : readLine u abi raw = .ok none) : trim isSpace raw = [] := by
  by_contra hne
  unfold readLine at h
  simp only [hne, if_false] at h
  obtain ⟨⟨name, ty, value⟩, -, h⟩ := bind_eq_ok.1 h
  obtain ⟨⟨cycle, field⟩, -, h⟩ := bind_eq_ok.1 h
  have hmap {x : Except FrameFormatError Assignment} : some <$> x ≠ .ok none := by
    cases x <;> exact nofun
  cases cycle with
  | none => exact hmap h
  | some cycle => exact hmap h

end Record

/-! ## The records of a text -/

/-- The assignments of some lines, in order. -/
def assignments (u : UnicodeData) (abi : TargetAbi) (raws : List Text) : List Assignment :=
  raws.filterMap fun raw => (readLine u abi raw).toOption.join

theorem assignments_cons {raw : Text} {raws : List Text} {o : Option Assignment}
    (h : readLine u abi raw = .ok o) :
    assignments u abi (raw :: raws) = o.toList ++ assignments u abi raws := by
  unfold assignments
  rw [List.filterMap_cons, h]
  cases o <;> rfl

/-- Every line is read. -/
def AllRead (u : UnicodeData) (abi : TargetAbi) (raws : List Text) : Prop :=
  ∀ raw ∈ raws, ∃ o, readLine u abi raw = .ok o

theorem parseLine_eq_ok {raw : Text} : parseLine u abi st raw = .ok st' ↔
    ∃ o, readLine u abi raw = .ok o ∧ st' = (o.map st.assign).getD st := by
  rw [parseLine, bind_eq_ok]
  refine exists_congr fun o => and_congr_right fun _ => ?_
  cases o <;> simp [pure, Except.pure, eq_comm]

theorem parseLines_eq_ok {raws : List Text} : raws.foldlM (parseLine u abi) st = .ok st' ↔
    AllRead u abi raws ∧ st' = (assignments u abi raws).foldl ParseState.assign st := by
  induction raws generalizing st with
  | nil =>
    rw [foldlM_nil_eq_ok]
    simp [AllRead, assignments, eq_comm]
  | cons raw raws ih =>
    rw [foldlM_cons_eq_ok]
    constructor
    · rintro ⟨st₁, h₁, h₂⟩
      obtain ⟨o, ho, rfl⟩ := parseLine_eq_ok.1 h₁
      obtain ⟨hall, rfl⟩ := ih.1 h₂
      refine ⟨fun raw' hraw => ?_, ?_⟩
      · rcases List.mem_cons.1 hraw with rfl | hraw
        · exact ⟨o, ho⟩
        · exact hall raw' hraw
      · rw [assignments_cons ho]
        cases o <;> rfl
    · rintro ⟨hall, rfl⟩
      obtain ⟨o, ho⟩ := hall raw List.mem_cons_self
      refine ⟨_, parseLine_eq_ok.2 ⟨o, ho, rfl⟩,
        ih.2 ⟨fun raw' hraw => hall raw' (List.mem_cons_of_mem _ hraw), ?_⟩⟩
      rw [assignments_cons ho]
      cases o <;> rfl

/-! ## What is stored -/

/-- The state holds what the assignments `rs` say. -/
structure Stored (rs : List Assignment) (st : ParseState) : Prop where
  init : st.initProfile = "cold".toList
  shared : st.shared = sharedOf rs
  fields : ∀ i : ℕ, (st.rawFrames[i]?).getD [] = fieldsOf rs i
  dt : ∀ i : ℕ, st.dtByFrame[i]? = dtOf rs i
  indices : ∀ i : ℕ, (i ∈ st.rawFrames ∨ i ∈ st.dtByFrame) ↔ ∃ a ∈ rs, a.cycle = some i

theorem stored_nil : Stored [] {} where
  init := rfl
  shared := rfl
  fields i := by simp [fieldsOf]
  dt i := by simp [dtOf]
  indices i := by simp

theorem exists_cycle_concat : (∃ b ∈ rs ++ [a], b.cycle = some i) ↔
    (∃ b ∈ rs, b.cycle = some i) ∨ a.cycle = some i := by
  simp [or_and_right, exists_or]

theorem Stored.assign (h : Stored rs st) (a : Assignment) : Stored (rs ++ [a]) (st.assign a) := by
  have hfields {a : Assignment} (ha : ∀ i, a.toField i = none) (i : ℕ) :
      fieldsOf (rs ++ [a]) i = fieldsOf rs i := by
    rw [fieldsOf_concat, ha]
    exact List.append_nil _
  cases a with
  | init =>
    refine ⟨rfl, by rw [sharedOf_concat]; exact h.shared, fun i => ?_, fun i => ?_, fun i => ?_⟩
    · rw [hfields fun _ => rfl]
      exact h.fields i
    · rw [dtOf_concat]
      exact h.dt i
    · rw [exists_cycle_concat, ← h.indices i]
      exact (or_iff_left nofun).symm
  | shared name value =>
    refine ⟨h.init, by rw [sharedOf_concat, ← h.shared]; rfl, fun i => ?_, fun i => ?_, fun i => ?_⟩
    · rw [hfields fun _ => rfl]
      exact h.fields i
    · rw [dtOf_concat]
      exact h.dt i
    · rw [exists_cycle_concat, ← h.indices i]
      exact (or_iff_left nofun).symm
  | dt j ns =>
    refine ⟨h.init, by rw [sharedOf_concat]; exact h.shared, fun i => ?_, fun i => ?_, fun i => ?_⟩
    · rw [hfields fun _ => rfl]
      exact h.fields i
    · rw [dtOf_concat]
      change (st.dtByFrame.insert j ns)[i]? = (lastValue [(j, ns)] i).or (dtOf rs i)
      rw [getElem?_insert_eq, lastValue_singleton, ← h.dt i]
      split <;> simp
    · rw [exists_cycle_concat, ← h.indices i]
      change (i ∈ st.rawFrames ∨ i ∈ st.dtByFrame.insert j ns) ↔ _ ∨ some j = some i
      rw [Std.ExtTreeMap.mem_insert, Std.LawfulEqCmp.compare_eq_iff_eq, Option.some.injEq]
      tauto
  | field j name value =>
    refine ⟨h.init, by rw [sharedOf_concat]; exact h.shared, fun i => ?_, fun i => ?_, fun i => ?_⟩
    · rw [fieldsOf_concat]
      change ((st.rawFrames.insert j ((st.rawFrames[j]?).getD [] ++ [(name, value)]))[i]?).getD [] = _
      rw [getElem?_insert_eq]
      by_cases hj : j = i
      · subst hj
        simp [Assignment.toField, h.fields j]
      · simp [Assignment.toField, hj, h.fields i]
    · rw [dtOf_concat]
      exact h.dt i
    · rw [exists_cycle_concat, ← h.indices i]
      change (i ∈ st.rawFrames.insert j _ ∨ i ∈ st.dtByFrame) ↔ _ ∨ some j = some i
      rw [Std.ExtTreeMap.mem_insert, Std.LawfulEqCmp.compare_eq_iff_eq, Option.some.injEq]
      tauto

theorem Stored.foldl {rs' : List Assignment} (h : Stored rs st) :
    Stored (rs ++ rs') (rs'.foldl ParseState.assign st) := by
  induction rs' generalizing rs st with
  | nil => simpa using h
  | cons a rs' ih => simpa using ih (h.assign a)

/-- When the frame numbers are consecutive from 0, they count the frames. -/
theorem Stored.frameCount (h : Stored rs st) (hindices : st.indices = List.range n) :
    FrameCount rs n := by
  intro i
  rw [← h.indices i, ← List.mem_range, ← hindices, ParseState.indices, mem_sortedSet,
    List.mem_append, Std.ExtTreeMap.mem_keys, Std.ExtTreeMap.mem_keys]

/-! ## The frames -/

/-- The default of every frame field. -/
def frameDefaults (abi : TargetAbi) : Values :=
  Engine.tableOf (fun spec => some spec.defaultFor) abi.frameActionParams

theorem isSome_frameDefaults {k : Text} :
    ((frameDefaults abi)[k]?).isSome ↔ k ∈ abi.frameActionParams.map Param.name :=
  Engine.isSome_tableOf

/-- The shared values of some parameters, inserted one after the other. -/
theorem getElem?_insertShared (params : List Param) (m shared : Values) (k : Text) :
    (params.foldl (withShared shared) m)[k]? =
      if k ∈ params.map Param.name then (shared[k]?).or m[k]? else m[k]? := by
  induction params using List.reverseRecOn with
  | nil => rfl
  | append_singleton params p ih =>
    rw [List.foldl_append, List.foldl_cons, List.foldl_nil, withShared]
    by_cases hk : p.name = k
    · subst hk
      cases hv : shared[p.name]? with
      | none => simp [ih, hv]
      | some v => simp
    · have hmem : k ∈ (params ++ [p]).map Param.name ↔ k ∈ params.map Param.name := by
        simp [Ne.symm hk]
      simp only [hmem]
      cases hv : shared[p.name]? with
      | none => exact ih
      | some v => simp only [getElem?_insert_eq, if_neg hk, ih]

theorem initialValues_eq_seeded (abi : TargetAbi) (shared : Values) :
    initialValues abi shared = seeded (frameDefaults abi) shared := by
  apply Std.ExtTreeMap.ext_getElem?
  intro k
  rw [initialValues, getElem?_insertShared, getElem?_seeded, ← frameDefaults]
  split
  · rename_i hmem
    obtain ⟨v, hv⟩ := Option.isSome_iff_exists.1 (isSome_frameDefaults.2 hmem)
    rw [hv]
    cases shared[k]? <;> rfl
  · rename_i hmem
    have hnone : (frameDefaults abi)[k]? = none := by
      rw [← Option.not_isSome_iff_eq_none, isSome_frameDefaults]
      exact hmem
    rw [hnone]
    rfl

theorem Stored.frameValues (h : Stored rs st) (i : ℕ) :
    frameValues abi st (inheritedAt (frameDefaults abi) rs i) i = valuesAt (frameDefaults abi) rs i := by
  rw [Corpus.frameValues, h.fields i]
  refine foldl_insertIfNew_eq_self Param.name fun p hp => ?_
  exact isSome_valuesAt i (isSome_frameDefaults.2 (List.mem_map_of_mem hp))

/-- A frame with what the result of the parser says of it. -/
def Frame.data (f : Frame) : ℕ × Values × Option ℤ := (f.index, f.values, f.dtNs)

/-- Frame `i`, with the scan period for a time step it lacks under a contract range. -/
def frameWith (defaults : Values) (rs : List Assignment) (scanPeriodNs : ℤ)
    (dtRangeNs : Option (ℤ × ℤ)) (i : ℕ) : ℕ × Values × Option ℤ :=
  (i, valuesAt defaults rs i, (dtOf rs i).or (dtRangeNs.map fun _ => scanPeriodNs))

theorem frameWith_none (defaults : Values) (rs : List Assignment) (scanPeriodNs : ℤ) (i : ℕ) :
    frameWith defaults rs scanPeriodNs none i = frameAt defaults rs i := by
  simp [frameWith, frameAt]

variable {scanPeriodNs : ℤ} {dtRangeNs : Option (ℤ × ℤ)}

theorem frameDt_eq_ok {dt : Option ℤ} (h : frameDt st scanPeriodNs dtRangeNs i = .ok dt) :
    dt = (st.dtByFrame[i]?).or (dtRangeNs.map fun _ => scanPeriodNs) := by
  unfold frameDt at h
  simp only at h
  generalize (st.dtByFrame[i]?).or (dtRangeNs.map fun _ => scanPeriodNs) = dt₀ at h ⊢
  rcases dt₀ with _ | dt₀
  · exact (Except.ok.inj h).symm
  · rcases dtRangeNs with _ | ⟨lo, hi⟩
    · exact (Except.ok.inj h).symm
    · simp only at h
      exact (Except.ok.inj (ite_error_eq_ok.1 h).2).symm

theorem Stored.expandFrames (h : Stored rs st) {frames : List Frame} {k : ℕ}
    (hok : expandFrames abi st scanPeriodNs dtRangeNs (inheritedAt (frameDefaults abi) rs i)
      (List.range' i k) = .ok frames) :
    frames.map Frame.data =
      (List.range' i k).map (frameWith (frameDefaults abi) rs scanPeriodNs dtRangeNs) := by
  induction k generalizing i frames with
  | zero =>
    obtain rfl := Except.ok.inj hok
    rfl
  | succ k ih =>
    rw [List.range'_succ, Corpus.expandFrames] at hok
    simp only [h.frameValues] at hok
    obtain ⟨dt, hdt, hok⟩ := bind_eq_ok.1 hok
    obtain ⟨rest, hrest, hok⟩ := bind_eq_ok.1 hok
    obtain rfl := Except.ok.inj hok
    rw [List.range'_succ, List.map_cons, List.map_cons, ih (i := i + 1) hrest]
    rw [Frame.data, frameDt_eq_ok hdt, h.dt]
    rfl

/-! ## The result -/

/-- What the parser makes of the assignments `rs` of `n` frames: a testcase without frames gets one
frame of initial values. -/
structure Parsed (abi : TargetAbi) (scanPeriodNs : ℤ) (dtRangeNs : Option (ℤ × ℤ))
    (rs : List Assignment) (n : ℕ) (T : TestCase) : Prop where
  count : FrameCount rs n
  initProfile : T.initProfile = "cold".toList
  shared : T.shared = sharedOf rs
  frames : T.frames.map Frame.data =
    if n = 0 then [frameAt (frameDefaults abi) rs 0]
    else (List.range n).map (frameWith (frameDefaults abi) rs scanPeriodNs dtRangeNs)
  fieldOrder : T.fieldOrder = abi.frameActionParams.map Param.name
  types : T.types = Engine.tableOf (fun spec => some spec.typeToken) (abi.stateFields ++ abi.params)
  sharedOrder : T.sharedOrder = abi.sharedParams.map Param.name

/-- **What the corpus's parser accepts, and what it makes of it.** -/
theorem parseTestcase_eq_ok {T : TestCase}
    (h : parseTestcase u text abi scanPeriodNs dtRangeNs = .ok T) :
    AllRead u abi (splitlines text) ∧ validate u T abi = .ok () ∧
      ∃ n, Parsed abi scanPeriodNs dtRangeNs (assignments u abi (splitlines text)) n T := by
  rw [parseTestcase, bind_eq_ok] at h
  obtain ⟨st, hst, h⟩ := h
  obtain ⟨hall, hst⟩ := parseLines_eq_ok.1 hst
  have hstored : Stored (assignments u abi (splitlines text)) st := by
    rw [hst]
    exact stored_nil.foldl
  obtain ⟨hindices, h⟩ := ite_error_eq_ok.1 h
  rw [not_not] at hindices
  obtain ⟨frames, hframes, h⟩ := bind_eq_ok.1 h
  obtain ⟨⟨⟩, hvalid, h⟩ := bind_eq_ok.1 h
  obtain rfl := Except.ok.inj h
  refine ⟨hall, hvalid, st.indices.length, ?_⟩
  rw [initialValues_eq_seeded, hstored.shared, List.range_eq_range'] at hframes
  have hcount := hstored.frameCount hindices
  have hdata := hstored.expandFrames (i := 0) hframes
  refine ⟨hcount, hstored.init, hstored.shared, ?_, rfl, rfl, rfl⟩
  have hlen : frames.length = st.indices.length := by
    have := congrArg List.length hdata
    simpa using this
  by_cases hn : st.indices.length = 0
  · have hnil : frames = [] := List.length_eq_zero_iff.1 (hlen.trans hn)
    rw [if_pos hn]
    simp only [hnil, if_true, List.map_cons, List.map_nil, Frame.data, frameAt]
    rw [initialValues_eq_seeded, hstored.shared, hcount.dtOf_eq_none (by omega), valuesAt,
      hcount.fieldsOf_eq_nil (by omega)]
    rfl
  · have hne : frames ≠ [] := fun hnil => hn (by rw [← hlen, hnil]; rfl)
    rw [if_neg hn, List.range_eq_range', ← hdata]
    simp only [hne, if_false]

end SemantiST.Corpus
