import SemantiST.Corpus.Canonical

/-!
# Building a testcase

`build_testcase` (`fuzzer/corpus/frames.py`) writes frames over the frames before them.  What the parser makes of the
text that it returns.
-/

namespace SemantiST.Corpus

open Lib

/-! ## The code -/

/-- The arguments of `build_testcase`; a value that is `None` deletes its field. -/
structure BuildCall where
  frames : List (List (Text × Option Text))
  shared : Values := ∅
  initProfile : Text := "cold".toList
  dtNs : Option ℤ := none
  frameDtNs : Option (List (Option ℤ)) := none
  includeDt : Bool := false

/-- The time step of a frame. -/
def BuildCall.frameDt (call : BuildCall) (index : ℕ) : Option ℤ :=
  match call.frameDtNs.bind fun dts => dts[index]? with
  | some dt => dt
  | none => if index = 0 then call.dtNs else none

variable (u : UnicodeData) (abi : TargetAbi)

/-- The field of a key, in any case. -/
def fieldOf (key : Text) : Option Param :=
  abi.frameActionParams.find? fun param => u.upperText param.name = u.upperText key

def mergeItem (merged : Values) (item : Text × Option Text) : Except FrameFormatError Values :=
  match fieldOf u abi item.1, item.2 with
  | none, _ => .error (.unknownFrameField item.1)
  | some param, none => .ok (merged.erase param.name)
  | some param, some value => .ok (merged.insert param.name value)

def buildFrames (call : BuildCall) : ℕ → Values → List (List (Text × Option Text)) →
    Except FrameFormatError (List Frame)
  | _, _, [] => .ok []
  | index, previous, values :: rest => do
    let merged ← values.foldlM (mergeItem u abi) previous
    let frames ← buildFrames call (index + 1) merged rest
    return ⟨index, merged, call.frameDt index⟩ :: frames

/-- The value of a field, where it has one, passes its check. -/
def validatePresent (params : List Param) (values : Values) : Except FrameFormatError Unit :=
  params.forM fun param =>
    match values[param.name]? with
    | some value => validateValue u param value
    | none => .ok ()

/-- The testcase of a call with these frames. -/
def BuildCall.testcase (call : BuildCall) (frames : List Frame) : TestCase where
  initProfile := call.initProfile
  shared := call.shared
  frames := frames
  fieldOrder := abi.frameActionParams.map Param.name
  types := Engine.tableOf (fun spec => some spec.typeToken) (abi.stateFields ++ abi.params)
  sharedOrder := abi.sharedParams.map Param.name

def buildTestcase (call : BuildCall) : Except FrameFormatError Text := do
  let frames ← buildFrames u abi call 0 (initialValues abi call.shared) call.frames
  validatePresent u abi.sharedParams call.shared
  frames.forM fun frame => validatePresent u abi.frameActionParams frame.values
  return (call.testcase abi frames).canonical call.includeDt

/-! ## What the text says -/

/-- The items of a frame by the names of their fields. -/
def resolve (items : List (Text × Option Text)) : List (Text × Option Text) :=
  items.filterMap fun item => (fieldOf u abi item.1).map fun param => (param.name, item.2)

/-- The values of a frame: a field that is not given, or deleted, keeps its value. -/
def carry (given : List (Text × Option Text)) (previous : Values) : Values :=
  previous.map fun name value => (lastValue given name).join.getD value

/-- The frames that are given, each over the one before it. -/
def carriedFrames (call : BuildCall) : ℕ → Values → List (List (Text × Option Text)) → List Frame
  | _, _, [] => []
  | index, previous, items :: rest =>
    let values := carry (resolve u abi items) previous
    ⟨index, values, if call.includeDt then call.frameDt index else none⟩ ::
      carriedFrames call (index + 1) values rest

/-- The frames that the parser is to find: a text without frames says one of initial values. -/
def BuildCall.parsedFrames (call : BuildCall) : List Frame :=
  match call.frames with
  | [] => [⟨0, initialValues abi call.shared, none⟩]
  | frames => carriedFrames u abi call 0 (initialValues abi call.shared) frames

/-- The frame has a record: a field that is not deleted, or a time step. -/
def Recorded (call : BuildCall) (frame : Frame) : Prop :=
  (∃ p ∈ abi.frameActionParams, p.name ∈ frame.values) ∨ (call.includeDt = true ∧ frame.dtNs ≠ none)

/-- A call of which the text can be read back. -/
structure BuildCall.Readable (call : BuildCall) : Prop where
  initProfile : call.initProfile = "cold".toList
  sharedNames : ∀ k ∈ call.shared, k ∈ abi.sharedParams.map Param.name
  plainShared : AllPlain call.shared
  plainGiven : ∀ items ∈ call.frames, ∀ item ∈ items, ∀ value ∈ item.2, Plain value
  dt : call.includeDt = true → ∀ i < call.frames.length, ∀ dt ∈ call.frameDt i, 0 ≤ dt ∧ dt ≤ u64Max
  /-- A field that is deleted from the start has a valid initial value. -/
  start : ∀ p ∈ abi.frameActionParams,
    (∀ items ∈ call.frames.head?, lastValue (resolve u abi items) p.name = some none) →
      ∀ v, (initialValues abi call.shared)[p.name]? = some v → validateValue u p v = .ok ()
  short : call.frames.length ≤ indexBound

section Merging

variable {u : UnicodeData} {abi : TargetAbi} {call : BuildCall} {previous merged : Values}
  {items : List (Text × Option Text)} {k : Text}

theorem fieldOf_mem {key : Text} {p : Param} (h : fieldOf u abi key = some p) : p ∈ abi.frameActionParams :=
  List.mem_of_find?_eq_some h

theorem mergeItem_spec {item : Text × Option Text} (h : mergeItem u abi previous item = .ok merged) :
    ∃ p, fieldOf u abi item.1 = some p ∧ ∀ k : Text, merged[k]? = if p.name = k then item.2 else previous[k]? := by
  unfold mergeItem at h
  split at h
  · cases h
  · rename_i p hfield hvalue
    obtain rfl := Except.ok.inj h
    refine ⟨p, hfield, fun k => ?_⟩
    rw [Std.ExtTreeMap.getElem?_erase, hvalue]
    simp
  · rename_i p value hfield hvalue
    obtain rfl := Except.ok.inj h
    refine ⟨p, hfield, fun k => ?_⟩
    rw [getElem?_insert_eq, hvalue]

/-- **The last item of a field counts.** -/
theorem mergeItems_spec (h : items.foldlM (mergeItem u abi) previous = .ok merged) (k : Text) :
    merged[k]? = (lastValue (resolve u abi items) k).getD previous[k]? := by
  induction items generalizing previous with
  | nil =>
    obtain rfl := foldlM_nil_eq_ok.1 h
    rfl
  | cons item items ih =>
    obtain ⟨next, hnext, h⟩ := foldlM_cons_eq_ok.1 h
    obtain ⟨p, hp, hnext⟩ := mergeItem_spec hnext
    have hresolve : resolve u abi (item :: items) = [(p.name, item.2)] ++ resolve u abi items := by
      rw [resolve, List.filterMap_cons, hp]
      rfl
    rw [ih h, hresolve, lastValue_append, lastValue_singleton, hnext k]
    cases lastValue (resolve u abi items) k with
    | some value => rfl
    | none => split <;> rfl

/-- What a frame carries over the one before it is what it has, and what that frame carried. -/
theorem getElem?_carry {carried : Values} (hprevious : ∀ v, previous[k]? = some v → carried[k]? = some v)
    (hcarried : (carried[k]?).isSome) (h : items.foldlM (mergeItem u abi) previous = .ok merged) :
    (carry (resolve u abi items) carried)[k]? = (merged[k]?).or carried[k]? := by
  obtain ⟨value, hvalue⟩ := Option.isSome_iff_exists.1 hcarried
  rw [carry, Std.ExtTreeMap.getElem?_map, hvalue, mergeItems_spec h k]
  rcases lastValue (resolve u abi items) k with _ | _ | v
  · rcases hp : previous[k]? with _ | w
    · rfl
    · have hw := hprevious w hp
      rw [hvalue] at hw
      obtain rfl := Option.some.inj hw
      rfl
  · rfl
  · rfl

end Merging

/-! ## Frames that inherit -/

/-- The frames that a canonical text says: a field without a record keeps its value. -/
def inherit (includeDt : Bool) : Values → List Frame → List Frame
  | _, [] => []
  | carried, f :: frames =>
    let values := insertAll carried (entries abi.frameActionParams f.values)
    ⟨f.index, values, if includeDt then f.dtNs else none⟩ :: inherit includeDt values frames

/-- The frames that the parser finds; a text without frames says one. -/
def inherited (includeDt : Bool) (shared : Values) (frames : List Frame) : List Frame :=
  match frames with
  | [] => [⟨0, initialValues abi shared, none⟩]
  | frames => inherit abi includeDt (initialValues abi shared) frames

section Inherit

variable {u : UnicodeData} {abi : TargetAbi} {includeDt : Bool} {T : TestCase} {carried : Values} {frames : List Frame}
  {f : Frame} {rs : List Assignment} {i n : ℕ} {scanPeriodNs : ℤ}

theorem getElem?_inherit_head {k : Text} (hk : k ∈ abi.frameActionParams.map Param.name) :
    (insertAll carried (entries abi.frameActionParams f.values))[k]? = (f.values[k]?).or carried[k]? := by
  rw [getElem?_insertAll, lastValue_entries, if_pos hk]

theorem getElem?_inherit_head_of_notMem {k : Text} (hk : k ∉ abi.frameActionParams.map Param.name) :
    (insertAll carried (entries abi.frameActionParams f.values))[k]? = carried[k]? := by
  rw [getElem?_insertAll, lastValue_entries, if_neg hk, Option.none_or]

/-- Frames that inherit have the fields of the ABI. -/
theorem mem_inherit_values (hcarried : ∀ k, k ∈ carried ↔ k ∈ abi.frameActionParams.map Param.name)
    (hf : f ∈ inherit abi includeDt carried frames) (k : Text) :
    k ∈ f.values ↔ k ∈ abi.frameActionParams.map Param.name := by
  induction frames generalizing carried with
  | nil => cases hf
  | cons g frames ih =>
    have hnext (k : Text) : k ∈ insertAll carried (entries abi.frameActionParams g.values) ↔
        k ∈ abi.frameActionParams.map Param.name := by
      rw [Std.ExtTreeMap.mem_iff_isSome_getElem?]
      by_cases hk : k ∈ abi.frameActionParams.map Param.name
      · have hsome := Std.ExtTreeMap.mem_iff_isSome_getElem?.1 ((hcarried k).2 hk)
        rw [getElem?_inherit_head hk, Option.isSome_or, hsome, Bool.or_true]
        exact iff_of_true rfl hk
      · rw [getElem?_inherit_head_of_notMem hk, ← Std.ExtTreeMap.mem_iff_isSome_getElem?]
        exact hcarried k
    rw [inherit] at hf
    rcases List.mem_cons.1 hf with rfl | hf
    · exact hnext k
    · exact ih hnext hf

/-- What holds of the values that frames have, and of those that the first of them inherits, holds of the values of all
frames. -/
theorem inherit_forall {P : Text → Text → Prop} (hframes : ∀ f ∈ frames, ∀ k v : Text, f.values[k]? = some v → P k v)
    (hnames : ∀ f ∈ frames, ∀ k ∈ f.values, k ∈ abi.frameActionParams.map Param.name)
    (hcarried : ∀ k v : Text, (∀ f ∈ frames.head?, k ∉ f.values) → carried[k]? = some v → P k v)
    (hf : f ∈ inherit abi includeDt carried frames) {k v : Text} (hv : f.values[k]? = some v) : P k v := by
  induction frames generalizing carried with
  | nil => cases hf
  | cons g frames ih =>
    have hnext {k v : Text} (hv : (insertAll carried (entries abi.frameActionParams g.values))[k]? = some v) :
        P k v := by
      by_cases hk : k ∈ abi.frameActionParams.map Param.name
      · rw [getElem?_inherit_head hk] at hv
        rcases hg : g.values[k]? with _ | w
        · rw [hg, Option.none_or] at hv
          refine hcarried k v ?_ hv
          intro f hf
          rw [← Option.some.inj hf, Std.ExtTreeMap.mem_iff_isSome_getElem?, hg]
          exact Bool.false_ne_true
        · rw [hg, Option.some_or] at hv
          obtain rfl := Option.some.inj hv
          exact hframes g List.mem_cons_self k w hg
      · rw [getElem?_inherit_head_of_notMem hk] at hv
        refine hcarried k v ?_ hv
        intro f hf hmem
        rw [← Option.some.inj hf] at hmem
        exact hk (hnames g List.mem_cons_self k hmem)
    rw [inherit] at hf
    rcases List.mem_cons.1 hf with rfl | hf
    · exact hnext hv
    · exact ih (fun f hf => hframes f (List.mem_cons_of_mem _ hf)) (fun f hf => hnames f (List.mem_cons_of_mem _ hf))
        (fun k v _ hv => hnext hv) hf

theorem inherit_dt (hf : f ∈ inherit abi includeDt carried frames) :
    ∃ g ∈ frames, f.index = g.index ∧ f.dtNs = if includeDt then g.dtNs else none := by
  induction frames generalizing carried with
  | nil => cases hf
  | cons g frames ih =>
    rw [inherit] at hf
    rcases List.mem_cons.1 hf with rfl | hf
    · exact ⟨g, List.mem_cons_self, rfl, rfl⟩
    · obtain ⟨g', hg', h⟩ := ih hf
      exact ⟨g', List.mem_cons_of_mem _ hg', h⟩

/-- The frames that the parser makes of records are those that inherit. -/
theorem inherit_data (hindex : frames.map Frame.index = List.range' i frames.length)
    (hfields : ∀ f ∈ frames, fieldsOf rs f.index = entries abi.frameActionParams f.values)
    (hdt : ∀ f ∈ frames, dtOf rs f.index = if includeDt then f.dtNs else none) :
    (inherit abi includeDt (inheritedAt (frameDefaults abi) rs i) frames).map Frame.data =
      (List.range' i frames.length).map (frameAt (frameDefaults abi) rs) := by
  induction frames generalizing i with
  | nil => rfl
  | cons f frames ih =>
    rw [List.length_cons, List.range'_succ, List.map_cons] at hindex
    obtain ⟨rfl, hindex⟩ := List.cons.inj hindex
    have hvalues : insertAll (inheritedAt (frameDefaults abi) rs f.index) (entries abi.frameActionParams f.values) =
        inheritedAt (frameDefaults abi) rs (f.index + 1) := by
      rw [inheritedAt, hfields f List.mem_cons_self]
    have hrest := ih hindex (fun g hg => hfields g (List.mem_cons_of_mem _ hg))
      (fun g hg => hdt g (List.mem_cons_of_mem _ hg))
    rw [inherit, hvalues, List.map_cons, hrest, List.length_cons, List.range'_succ, List.map_cons]
    rw [Frame.data, frameAt, hdt f List.mem_cons_self]
    rfl

/-- **A canonical text is parsed to its frames, each with the values that it inherits.** -/
theorem parse_inherited (hT : Legible abi includeDt T) (hindex : T.frames.map Frame.index = List.range n)
    (hcounted : n ≤ 1 ∨ ∀ f ∈ T.frames, frameAssignments abi includeDt f ≠ [])
    (hvalid : validate u { T with frames := inherited abi includeDt T.shared T.frames } abi = .ok ()) :
    parseTestcase u (T.canonical includeDt) abi scanPeriodNs none =
      .ok { T with frames := inherited abi includeDt T.shared T.frames } := by
  obtain ⟨hall, hspelled⟩ := assignments_canonical (u := u) hT
  have hnodup := nodup_of_index hindex
  have hlength : T.frames.length = n := by
    have := congrArg List.length hindex
    simpa using this
  have hstart : initialValues abi T.shared = inheritedAt (frameDefaults abi) (spelled abi includeDt T) 0 := by
    rw [initialValues_eq_seeded, inheritedAt, sharedOf_spelled hT.sharedNames]
  have hdata : (inherit abi includeDt (initialValues abi T.shared) T.frames).map Frame.data =
      (List.range n).map (frameAt (frameDefaults abi) (spelled abi includeDt T)) := by
    rw [hstart, List.range_eq_range', ← hlength]
    refine inherit_data ?_ (fun f hf => fieldsOf_spelled hnodup hf) (fun f hf => dtOf_spelled hnodup hf)
    rw [hindex, hlength, List.range_eq_range']
  have parsed {m : ℕ} (hcount : FrameCount (spelled abi includeDt T) m)
      (hm : m = 0 ∧ n ≤ 1 ∨ m = n) :
      parseTestcase u (T.canonical includeDt) abi scanPeriodNs none =
        .ok { T with frames := inherited abi includeDt T.shared T.frames } := by
    apply parseTestcase_of_parsed hall (n := m) _ (fun i _ range hrange => by cases hrange) hvalid
    rw [hspelled]
    refine ⟨hcount, hT.initProfile, (sharedOf_spelled hT.sharedNames).symm, ?_, hT.shaped.fieldOrder, hT.shaped.types,
      hT.shaped.sharedOrder⟩
    rw [funext (frameWith_none (frameDefaults abi) (spelled abi includeDt T) scanPeriodNs)]
    rcases hframes : T.frames with _ | ⟨f, frames⟩
    · have hn : n = 0 := by rw [← hlength, hframes]; rfl
      have hzero : m = 0 := by omega
      subst hzero
      rw [if_pos rfl]
      simp only [inherited, List.map_cons, List.map_nil, Frame.data, frameAt]
      rw [hstart, valuesAt, hcount.fieldsOf_eq_nil (Nat.le_refl 0), hcount.dtOf_eq_none (Nat.le_refl 0)]
      rfl
    · have hn : n = frames.length + 1 := by rw [← hlength, hframes]; rfl
      have hinherited : inherited abi includeDt T.shared (f :: frames) =
          inherit abi includeDt (initialValues abi T.shared) (f :: frames) := rfl
      rw [hinherited, ← hframes, hdata]
      split
      · have hone : n = 1 := by omega
        rw [hone]
        rfl
      · have hmn : m = n := by omega
        rw [hmn]
  by_cases hall' : ∀ f ∈ T.frames, frameAssignments abi includeDt f ≠ []
  · exact parsed (frameCount_spelled hindex hall') (Or.inr rfl)
  · have hn : n ≤ 1 := hcounted.resolve_right hall'
    refine parsed (m := 0) ?_ (Or.inl ⟨rfl, hn⟩)
    intro i
    refine iff_of_false ?_ (Nat.not_lt_zero i)
    rintro ⟨a, ha, hi⟩
    rcases List.mem_append.1 ha with ha | ha
    · rw [sharedAssignments_cycle ha] at hi
      cases hi
    · obtain ⟨f, hf, ha⟩ := List.mem_flatMap.1 ha
      push Not at hall'
      obtain ⟨g, hg, hnone⟩ := hall'
      have hsame : f = g := by
        have hone : T.frames.length ≤ 1 := by omega
        rcases hframes : T.frames with _ | ⟨e, _ | ⟨e', frames⟩⟩
        · rw [hframes] at hf
          cases hf
        · rw [hframes, List.mem_singleton] at hf hg
          rw [hf, hg]
        · rw [hframes] at hone
          simp at hone
      rw [hsame, hnone] at ha
      cases ha

end Inherit

/-! ## Valid testcases -/

section Valid

variable {u : UnicodeData} {abi : TargetAbi} {T : TestCase} {f : Frame} {values : Values}

theorem validatePresent_eq_ok {params : List Param} : validatePresent u params values = .ok () ↔
    ∀ p ∈ params, ∀ v, values[p.name]? = some v → validateValue u p v = .ok () := by
  rw [validatePresent, forM_eq_ok_iff]
  refine forall₂_congr fun p _ => ?_
  cases values[p.name]? with
  | none => simp
  | some v => simp

/-- A check of every value against its parameter. -/
theorem forM_values_eq_ok {params : List Param} (h : ∀ p ∈ params, ∀ v, values[p.name]? = some v → validateValue u p v = .ok ()) :
    (values.toList.forM fun ((name, value) : Text × Text) =>
      match params.find? fun param : Param => param.name = name with
      | some param => validateValue u param value
      | none => .ok ()) = .ok () := by
  apply forM_eq_ok_iff.2
  rintro ⟨name, value⟩ hmem
  have hvalue : values[name]? = some value := Std.ExtTreeMap.mem_toList_iff_getElem?_eq_some.1 hmem
  dsimp only
  rcases hfind : params.find? (fun param : Param => param.name = name) with _ | p
  · rfl
  · have hname : p.name = name := of_decide_eq_true (List.find?_some hfind :)
    exact h p (List.mem_of_find?_eq_some hfind) value (hname ▸ hvalue)

theorem validateFrame_eq_ok (hnames : ∀ k, k ∈ f.values ↔ k ∈ abi.frameActionParams.map Param.name)
    (hdt : ∀ dt, f.dtNs = some dt → 0 ≤ dt ∧ dt ≤ u64Max)
    (hvalues : ∀ p ∈ abi.frameActionParams, ∀ v, f.values[p.name]? = some v → validateValue u p v = .ok ()) :
    validateFrame u abi f = .ok () := by
  refine ite_error_eq_ok.2 ⟨?_, ite_error_eq_ok.2 ⟨?_, forM_values_eq_ok hvalues⟩⟩
  · rw [not_or, not_not, not_not, missingFrom_eq_nil, missingFrom_eq_nil]
    exact ⟨fun name hname => Std.ExtTreeMap.mem_keys.2 ((hnames name).2 hname),
      fun name hname => (hnames name).1 (Std.ExtTreeMap.mem_keys.1 hname)⟩
  · rcases hsome : f.dtNs with _ | dt
    · exact Bool.false_ne_true
    · have := hdt dt hsome
      rw [Option.any_some, decide_eq_true_eq]
      omega

theorem validate_eq_ok (hnames : ∀ k ∈ T.shared, k ∈ abi.sharedParams.map Param.name)
    (hshared : ∀ p ∈ abi.sharedParams, ∀ v, T.shared[p.name]? = some v → validateValue u p v = .ok ())
    (hframes : ∀ f ∈ T.frames, validateFrame u abi f = .ok ()) : validate u T abi = .ok () := by
  refine ite_error_eq_ok.2 ⟨?_, bind_eq_ok.2 ⟨(), forM_values_eq_ok hshared, forM_eq_ok_iff.2 hframes⟩⟩
  rw [not_not, missingFrom_eq_nil]
  exact fun name hname => hnames name (Std.ExtTreeMap.mem_keys.1 hname)

end Valid

/-! ## Built frames -/

section Built

variable {u : UnicodeData} {abi : TargetAbi} {call : BuildCall} {previous carried merged : Values}
  {items : List (Text × Option Text)} {rest : List (List (Text × Option Text))} {frames : List Frame} {f : Frame} {i : ℕ}

theorem buildFrames_cons (h : buildFrames u abi call i previous (items :: rest) = .ok frames) :
    ∃ merged frames', items.foldlM (mergeItem u abi) previous = .ok merged ∧
      buildFrames u abi call (i + 1) merged rest = .ok frames' ∧ frames = ⟨i, merged, call.frameDt i⟩ :: frames' := by
  obtain ⟨merged, hmerged, h⟩ := bind_eq_ok.1 h
  obtain ⟨frames', hframes, h⟩ := bind_eq_ok.1 h
  exact ⟨merged, frames', hmerged, hframes, (Except.ok.inj h).symm⟩

theorem mem_names_of_resolve {k : Text} {o : Option Text} (h : (k, o) ∈ resolve u abi items) :
    k ∈ abi.frameActionParams.map Param.name := by
  obtain ⟨item, -, hitem⟩ := List.mem_filterMap.1 h
  obtain ⟨p, hp, heq⟩ := Option.map_eq_some_iff.1 hitem
  rw [← (Prod.mk.inj heq).1]
  exact List.mem_map_of_mem (fieldOf_mem hp)

theorem buildFrames_index (h : buildFrames u abi call i previous rest = .ok frames) :
    frames.map Frame.index = List.range' i rest.length := by
  induction rest generalizing i previous frames with
  | nil =>
    obtain rfl := Except.ok.inj h
    rfl
  | cons items rest ih =>
    obtain ⟨merged, frames', -, hframes, rfl⟩ := buildFrames_cons h
    rw [List.map_cons, ih hframes, List.length_cons, List.range'_succ]

theorem buildFrames_dt (h : buildFrames u abi call i previous rest = .ok frames) (hf : f ∈ frames) :
    f.dtNs = call.frameDt f.index := by
  induction rest generalizing i previous frames with
  | nil =>
    obtain rfl := Except.ok.inj h
    cases hf
  | cons items rest ih =>
    obtain ⟨merged, frames', -, hframes, rfl⟩ := buildFrames_cons h
    rcases List.mem_cons.1 hf with rfl | hf
    · rfl
    · exact ih hframes hf

/-- What holds of the given values, and of those to start from, holds of the values of all frames. -/
theorem buildFrames_forall {P : Text → Text → Prop} (h : buildFrames u abi call i previous rest = .ok frames)
    (hprevious : ∀ k v : Text, previous[k]? = some v → P k v)
    (hgiven : ∀ items ∈ rest, ∀ k v : Text, (k, some v) ∈ resolve u abi items → P k v) (hf : f ∈ frames) {k v : Text}
    (hv : f.values[k]? = some v) : P k v := by
  induction rest generalizing i previous frames with
  | nil =>
    obtain rfl := Except.ok.inj h
    cases hf
  | cons items rest ih =>
    obtain ⟨merged, frames', hmerged, hframes, rfl⟩ := buildFrames_cons h
    have hnext {k v : Text} (hv : merged[k]? = some v) : P k v := by
      rw [mergeItems_spec hmerged k] at hv
      rcases hlast : lastValue (resolve u abi items) k with _ | o
      · rw [hlast] at hv
        exact hprevious k v hv
      · rw [hlast, Option.getD_some] at hv
        exact hgiven items List.mem_cons_self k v (hv ▸ mem_of_lastValue hlast)
    rcases List.mem_cons.1 hf with rfl | hf
    · exact hnext hv
    · exact ih hframes (fun k v hv => hnext hv) (fun items hitems => hgiven items (List.mem_cons_of_mem _ hitems)) hf

/-- A frame over what the parser carries. -/
theorem carry_eq (h : items.foldlM (mergeItem u abi) previous = .ok merged)
    (hcarried : ∀ k, k ∈ carried ↔ k ∈ abi.frameActionParams.map Param.name)
    (hprevious : ∀ k v : Text, previous[k]? = some v → carried[k]? = some v) :
    carry (resolve u abi items) carried = insertAll carried (entries abi.frameActionParams merged) := by
  apply Std.ExtTreeMap.ext_getElem?
  intro k
  rw [getElem?_insertAll, lastValue_entries]
  by_cases hk : k ∈ abi.frameActionParams.map Param.name
  · rw [if_pos hk]
    exact getElem?_carry (hprevious k) (Std.ExtTreeMap.mem_iff_isSome_getElem?.1 ((hcarried k).2 hk)) h
  · have hnone : carried[k]? = none := by
      rw [← Option.not_isSome_iff_eq_none, ← Std.ExtTreeMap.mem_iff_isSome_getElem?, hcarried]
      exact hk
    rw [if_neg hk, carry, Std.ExtTreeMap.getElem?_map, hnone]
    rfl

/-- **The frames that are given, each over the one before it, are those that the parser makes of the built ones.** -/
theorem carriedFrames_eq_inherit (h : buildFrames u abi call i previous rest = .ok frames)
    (hcarried : ∀ k, k ∈ carried ↔ k ∈ abi.frameActionParams.map Param.name)
    (hprevious : ∀ k v : Text, previous[k]? = some v → carried[k]? = some v) :
    carriedFrames u abi call i carried rest = inherit abi call.includeDt carried frames := by
  induction rest generalizing i previous carried frames with
  | nil =>
    obtain rfl := Except.ok.inj h
    rfl
  | cons items rest ih =>
    obtain ⟨merged, frames', hmerged, hframes, rfl⟩ := buildFrames_cons h
    have hnames (k : Text) : k ∈ carry (resolve u abi items) carried ↔ k ∈ abi.frameActionParams.map Param.name := by
      rw [carry, Std.ExtTreeMap.mem_map]
      exact hcarried k
    have hnext (k v : Text) (hv : merged[k]? = some v) : (carry (resolve u abi items) carried)[k]? = some v := by
      have hk : k ∈ abi.frameActionParams.map Param.name := by
        rw [mergeItems_spec hmerged k] at hv
        rcases hlast : lastValue (resolve u abi items) k with _ | o
        · rw [hlast] at hv
          exact (hcarried k).1 (Std.ExtTreeMap.mem_iff_isSome_getElem?.2 (by rw [hprevious k v hv]; rfl))
        · exact mem_names_of_resolve (mem_of_lastValue hlast)
      rw [getElem?_carry (hprevious k) (Std.ExtTreeMap.mem_iff_isSome_getElem?.1 ((hcarried k).2 hk)) hmerged, hv]
      rfl
    rw [carriedFrames, inherit, ← carry_eq hmerged hcarried hprevious, ih hframes hnames hnext]

end Built

/-! ## The round trip -/

section RoundTrip

variable {u : UnicodeData} {abi : TargetAbi} {call : BuildCall} {frames : List Frame} {f : Frame} {text : Text}
  {scanPeriodNs : ℤ}

theorem getElem?_initialValues {shared : Values} {k v : Text} (h : (initialValues abi shared)[k]? = some v) :
    k ∈ abi.frameActionParams.map Param.name ∧ (shared[k]? = some v ∨ ∃ spec : TypeSpec, v = spec.defaultFor) := by
  rw [initialValues_eq_seeded, getElem?_seeded] at h
  obtain ⟨value, hvalue, rfl⟩ := Option.map_eq_some_iff.1 h
  refine ⟨isSome_frameDefaults.1 (by rw [hvalue]; rfl), ?_⟩
  cases hshared : shared[k]? with
  | some w => exact Or.inl rfl
  | none =>
    obtain ⟨p, -, -, hdefault⟩ := Engine.mem_of_tableOf hvalue
    exact Or.inr ⟨p.spec, (Option.some.inj hdefault).symm⟩

theorem mem_initialValues {shared : Values} {k : Text} :
    k ∈ initialValues abi shared ↔ k ∈ abi.frameActionParams.map Param.name := by
  rw [Std.ExtTreeMap.mem_iff_isSome_getElem?, initialValues_eq_seeded, getElem?_seeded, Option.isSome_map]
  exact isSome_frameDefaults

theorem BuildCall.Readable.legible (hcall : call.Readable u abi)
    (h : buildFrames u abi call 0 (initialValues abi call.shared) call.frames = .ok frames) :
    Legible abi call.includeDt (call.testcase abi frames) := by
  have hindex (f : Frame) (hf : f ∈ frames) : f.index < call.frames.length := by
    have hmem : f.index ∈ frames.map Frame.index := List.mem_map_of_mem hf
    rw [buildFrames_index h, List.mem_range'_1] at hmem
    omega
  have hvalue (f : Frame) (hf : f ∈ frames) (k v : Text) (hv : f.values[k]? = some v) :
      k ∈ abi.frameActionParams.map Param.name ∧ Plain v := by
    refine buildFrames_forall (P := fun k v => k ∈ abi.frameActionParams.map Param.name ∧ Plain v) h ?_ ?_ hf hv
    · intro k v hv
      obtain ⟨hk, hv⟩ := getElem?_initialValues hv
      rcases hv with hv | ⟨spec, rfl⟩
      · exact ⟨hk, hcall.plainShared k v hv⟩
      · exact ⟨hk, plain_defaultFor spec⟩
    · intro items hitems k v hmem
      refine ⟨mem_names_of_resolve hmem, ?_⟩
      obtain ⟨item, hitem, heq⟩ := List.mem_filterMap.1 hmem
      obtain ⟨p, -, heq⟩ := Option.map_eq_some_iff.1 heq
      exact hcall.plainGiven items hitems item hitem v (Prod.mk.inj heq).2
  refine ⟨⟨rfl, rfl, rfl⟩, hcall.initProfile, hcall.sharedNames, ?_, hcall.plainShared, ?_, ?_, ?_⟩
  · intro f hf k hk
    obtain ⟨v, hv⟩ := Option.isSome_iff_exists.1 (Std.ExtTreeMap.mem_iff_isSome_getElem?.1 hk)
    exact (hvalue f hf k v hv).1
  · exact fun f hf k v hv => (hvalue f hf k v hv).2
  · intro f hf
    have := hindex f hf
    have := hcall.short
    omega
  · intro hdt f hf dt hsome
    rw [buildFrames_dt h hf] at hsome
    exact hcall.dt hdt f.index (hindex f hf) dt hsome

/-- The frames that the parser makes of the built ones are the given frames over each other. -/
theorem inherited_eq_parsedFrames (h : buildFrames u abi call 0 (initialValues abi call.shared) call.frames = .ok frames) :
    inherited abi call.includeDt call.shared frames = call.parsedFrames u abi := by
  have hindex := buildFrames_index h
  unfold BuildCall.parsedFrames
  cases hframes : call.frames with
  | nil =>
    rw [hframes] at h
    obtain rfl := Except.ok.inj h
    rfl
  | cons items rest =>
    rw [hframes] at h
    obtain ⟨merged, frames', -, -, rfl⟩ := buildFrames_cons h
    exact (carriedFrames_eq_inherit h (fun k => mem_initialValues) fun k v hv => hv).symm

/-- The frames that the parser makes of a built testcase are valid. -/
theorem valid_inherited (hcall : call.Readable u abi)
    (h : buildFrames u abi call 0 (initialValues abi call.shared) call.frames = .ok frames)
    (hpresent : ∀ f ∈ frames, validatePresent u abi.frameActionParams f.values = .ok ())
    (hf : f ∈ inherited abi call.includeDt call.shared frames) : validateFrame u abi f = .ok () := by
  have hlegible := hcall.legible h
  cases hframes : frames with
  | nil =>
    have hnone : call.frames = [] := by
      have := congrArg List.length (buildFrames_index h)
      rw [hframes, List.length_map, List.length_range'] at this
      exact List.length_eq_zero_iff.1 this.symm
    rw [hframes] at hf
    obtain rfl := List.mem_singleton.1 hf
    refine validateFrame_eq_ok (fun k => mem_initialValues) (fun dt hdt => by cases hdt) ?_
    intro p hp v hv
    refine hcall.start p hp ?_ v hv
    intro items hitems
    rw [hnone] at hitems
    cases hitems
  | cons g rest =>
    have hinherit : inherited abi call.includeDt call.shared frames =
        inherit abi call.includeDt (initialValues abi call.shared) frames := by
      rw [hframes]
      rfl
    rw [hinherit] at hf
    refine validateFrame_eq_ok (mem_inherit_values (fun k => mem_initialValues) hf) ?_ ?_
    · intro dt hdt
      obtain ⟨g', hg', -, hdt'⟩ := inherit_dt hf
      rw [hdt'] at hdt
      split at hdt
      · rename_i hinclude
        exact hlegible.dt hinclude g' hg' dt hdt
      · cases hdt
    · intro p hp v hv
      refine inherit_forall (P := fun k v => ∀ p ∈ abi.frameActionParams, p.name = k → validateValue u p v = .ok ())
        ?_ hlegible.fieldNames ?_ hf hv p hp rfl
      · intro f hf k v hv p hp hk
        exact validatePresent_eq_ok.1 (hpresent f hf) p hp v (hk ▸ hv)
      · rintro k v hfirst hv p hp rfl
        refine hcall.start p hp ?_ v hv
        intro items hitems
        -- the first frame lacks the field, so its items delete it
        obtain ⟨others, hothers⟩ : ∃ others, call.frames = items :: others := List.head?_eq_some_iff.1 hitems
        rw [hothers] at h
        obtain ⟨merged, frames', hmerged, -, rfl⟩ := buildFrames_cons h
        have hmem := hfirst _ rfl
        rw [Std.ExtTreeMap.mem_iff_isSome_getElem?, mergeItems_spec hmerged, hv] at hmem
        rcases hlast : lastValue (resolve u abi items) p.name with _ | _ | w
        · rw [hlast] at hmem
          exact absurd rfl hmem
        · rfl
        · rw [hlast] at hmem
          exact absurd rfl hmem

theorem Recorded.ne_nil {frame : Frame} (h : Recorded abi call frame) :
    frameAssignments abi call.includeDt frame ≠ [] := by
  rcases h with ⟨p, hp, hmem⟩ | ⟨hdt, hsome⟩
  · obtain ⟨v, hv⟩ := Option.isSome_iff_exists.1 (Std.ExtTreeMap.mem_iff_isSome_getElem?.1 hmem)
    exact List.ne_nil_of_mem (List.mem_append_left _ (List.mem_filterMap.2 ⟨p, hp, by rw [hv]; rfl⟩))
  · obtain ⟨dt, hdt'⟩ := Option.ne_none_iff_exists'.1 hsome
    rw [frameAssignments, if_pos hdt, hdt']
    exact List.append_ne_nil_of_right_ne_nil _ (List.cons_ne_nil _ _)

/-- **The text of a call is parsed to its frames, each over the one before it, to its shared values and to the time
steps that it says.** -/
theorem parse_buildTestcase (h : buildTestcase u abi call = .ok text) (hcall : call.Readable u abi)
    (hrecorded : call.frames.length ≤ 1 ∨ ∀ frames,
      buildFrames u abi call 0 (initialValues abi call.shared) call.frames = .ok frames →
        ∀ frame ∈ frames, Recorded abi call frame) :
    ∃ T, parseTestcase u text abi scanPeriodNs none = .ok T ∧ T.initProfile = call.initProfile ∧
      T.shared = call.shared ∧ T.frames = call.parsedFrames u abi := by
  obtain ⟨frames, hframes, h⟩ := bind_eq_ok.1 h
  obtain ⟨⟨⟩, hshared, h⟩ := bind_eq_ok.1 h
  obtain ⟨⟨⟩, hpresent, h⟩ := bind_eq_ok.1 h
  obtain rfl := Except.ok.inj h
  have hlegible := hcall.legible hframes
  have hindex : frames.map Frame.index = List.range call.frames.length := by
    rw [buildFrames_index hframes, List.range_eq_range']
  refine ⟨_, parse_inherited hlegible hindex ?_ ?_, rfl, rfl, inherited_eq_parsedFrames hframes⟩
  · exact hrecorded.imp_right fun hrecorded frame hframe => (hrecorded frames hframes frame hframe).ne_nil
  · apply validate_eq_ok hcall.sharedNames (validatePresent_eq_ok.1 hshared)
    exact fun f hf => valid_inherited hcall hframes (forM_eq_ok_iff.1 hpresent) hf

end RoundTrip

instance (abi : TargetAbi) (call : BuildCall) (frame : Frame) : Decidable (Recorded abi call frame) :=
  inferInstanceAs (Decidable (_ ∨ _))

/-- An input that is given and then deleted, in a frame with a time step. -/
def deleted : BuildCall where
  frames := [[("X".toList, some "1".toList)], [("x".toList, none)]]
  frameDtNs := some [none, some 5]
  includeDt := true

theorem readable_deleted : deleted.Readable asciiData oneInput where
  initProfile := rfl
  sharedNames := fun k hk => absurd hk Std.ExtTreeMap.not_mem_empty
  plainShared := fun k v hv => by cases hv
  plainGiven := by decide +kernel
  dt := by decide +kernel
  start := by
    intro p hp hfirst
    obtain rfl := List.mem_singleton.1 hp
    exact absurd (hfirst _ rfl) (by decide +kernel)
  short := by decide +kernel

theorem parse_buildTestcase_deleted : ∃ text T, buildTestcase asciiData oneInput deleted = .ok text ∧
    parseTestcase asciiData text oneInput 0 none = .ok T ∧ T.frames = deleted.parsedFrames asciiData oneInput := by
  have hok : (buildTestcase asciiData oneInput deleted).toBool = true := by decide +kernel
  have hrecorded : ∀ frames ∈ (buildFrames asciiData oneInput deleted 0 (initialValues oneInput ∅) deleted.frames).toOption,
      ∀ frame ∈ frames, Recorded oneInput deleted frame := by decide +kernel
  cases hbuild : buildTestcase asciiData oneInput deleted with
  | error e =>
    rw [hbuild] at hok
    cases hok
  | ok text =>
    obtain ⟨T, hparse, -, -, hframes⟩ := parse_buildTestcase hbuild readable_deleted
      (Or.inr fun frames hframes => hrecorded frames (toOption_eq_some.2 hframes))
    exact ⟨text, T, rfl, hparse, hframes⟩

/-- A function block with one `STRING` input. -/
def oneText : TargetAbi where
  kind := .functionBlock
  params := [⟨"S".toList, .string false 80, .varInput, false⟩]
  stateFields := [⟨"S".toList, .string false 80, .varInput, false⟩]
  fieldName := by decide
  oneName := by decide
  nodup_params := by decide
  nodup_stateFields := by decide
  members := by decide

/-- A string of which the second line is a record. -/
def broken : BuildCall where
  frames := [[("S".toList, some "A\n1.S,STRING,B".toList)]]

/-- A deleted input has its earlier value again, and a value with a line break adds a frame. -/
theorem buildTestcase_not_parsed :
    (∃ text T frames, buildTestcase asciiData oneInput deleted = .ok text ∧
      buildFrames asciiData oneInput deleted 0 (initialValues oneInput ∅) deleted.frames = .ok frames ∧
      parseTestcase asciiData text oneInput 0 none = .ok T ∧
      frames.map (fun f => (f.values["X".toList]?)) = [some "1".toList, none] ∧
      T.frames.map (fun f => (f.values["X".toList]?)) = [some "1".toList, some "1".toList]) ∧
    ∃ text T frames, buildTestcase asciiData oneText broken = .ok text ∧
      buildFrames asciiData oneText broken 0 (initialValues oneText ∅) broken.frames = .ok frames ∧
      parseTestcase asciiData text oneText 0 none = .ok T ∧ frames.length = 1 ∧
      T.frames.map (fun f => (f.values["S".toList]?)) = [some "A".toList, some "B".toList] := by
  have hbuilt : (buildFrames asciiData oneInput deleted 0 (initialValues oneInput ∅) deleted.frames).toOption.map
      (List.map fun f : Frame => f.values["X".toList]?) = some [some "1".toList, none] := by decide +kernel
  have hparsed : ((buildTestcase asciiData oneInput deleted).toOption.bind fun text =>
      (parseTestcase asciiData text oneInput 0 none).toOption.map fun T =>
        T.frames.map fun f => f.values["X".toList]?) = some [some "1".toList, some "1".toList] := by decide +kernel
  have hbuilt' : (buildFrames asciiData oneText broken 0 (initialValues oneText ∅) broken.frames).toOption.map
      List.length = some 1 := by decide +kernel
  have hparsed' : ((buildTestcase asciiData oneText broken).toOption.bind fun text =>
      (parseTestcase asciiData text oneText 0 none).toOption.map fun T =>
        T.frames.map fun f => f.values["S".toList]?) = some [some "A".toList, some "B".toList] := by decide +kernel
  constructor
  · obtain ⟨frames, hframes, hvalues⟩ := Option.map_eq_some_iff.1 hbuilt
    obtain ⟨text, htext, hparsed⟩ := Option.bind_eq_some_iff.1 hparsed
    obtain ⟨T, hT, hfields⟩ := Option.map_eq_some_iff.1 hparsed
    rw [toOption_eq_some] at hframes htext hT
    exact ⟨text, T, frames, htext, hframes, hT, hvalues, hfields⟩
  · obtain ⟨frames, hframes, hlength⟩ := Option.map_eq_some_iff.1 hbuilt'
    obtain ⟨text, htext, hparsed⟩ := Option.bind_eq_some_iff.1 hparsed'
    obtain ⟨T, hT, hfields⟩ := Option.map_eq_some_iff.1 hparsed
    rw [toOption_eq_some] at hframes htext hT
    exact ⟨text, T, frames, htext, hframes, hT, hlength, hfields⟩

end SemantiST.Corpus
