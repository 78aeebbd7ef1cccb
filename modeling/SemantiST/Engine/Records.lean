import Mathlib.Data.List.ModifyLast
import SemantiST.Engine.Bundle
import SemantiST.Engine.ParseLemmas

/-!
# The engine's parser as a list of assignments

Which assignment the parser reads off a record does not depend on where the record stands; what it
has stored after some of them is what they say.
-/

namespace SemantiST.Engine

open Lib

variable {schema : FrameSchema} {st st' : ParseState} {line : ℕ} {name kind value : Text}
  {rs : List Assignment} {a : Assignment} {n i : ℕ}

/-! ## Declared names -/

/-- Among parameters that case tells apart, a name resolves to its parameter. -/
theorem canonicalName_tableOf {params : List Param} {p : Param} {field : Text} (hp : p ∈ params)
    (hunique : ∀ q ∈ params, eqIgnoreAsciiCase q.name p.name = true → q = p)
    (h : eqIgnoreAsciiCase p.name field = true) :
    canonicalName (tableOf (fun s => some s.typeToken) params) field = p.name := by
  have hkey : p.name ∈ (tableOf (fun s => some s.typeToken) params).keys := by
    rw [Std.ExtTreeMap.mem_keys, Std.ExtTreeMap.mem_iff_isSome_getElem?, isSome_tableOf]
    exact List.mem_map_of_mem hp
  rcases canonicalName_cases (tableOf (fun s => some s.typeToken) params) field with
    ⟨-, hnone⟩ | ⟨hmem, hsame⟩
  · rw [hnone _ hkey] at h
    cases h
  · generalize canonicalName (tableOf (fun s => some s.typeToken) params) field = canonical
      at hmem hsame ⊢
    rw [Std.ExtTreeMap.mem_keys, Std.ExtTreeMap.mem_iff_isSome_getElem?, isSome_tableOf] at hmem
    obtain ⟨q, hq, rfl⟩ := List.mem_map.1 hmem
    rw [hunique q hq (eqIgnoreAsciiCase_trans hsame (eqIgnoreAsciiCase_symm h))]

theorem canonicalName_sharedTypes {abi : TargetAbi} {p : Param} {field : Text}
    (hp : p ∈ abi.sharedParams) (h : eqIgnoreAsciiCase p.name field = true) :
    canonicalName (Engine.schema abi).sharedTypes field = p.name :=
  canonicalName_tableOf hp (fun q hq hqp => abi.oneName q (TargetAbi.mem_of_mem_sharedParams hq) p
    (TargetAbi.mem_of_mem_sharedParams hp) hqp) h

theorem canonicalName_frameTypes {abi : TargetAbi} {p : Param} {field : Text}
    (hp : p ∈ abi.frameActionParams) (h : eqIgnoreAsciiCase p.name field = true) :
    canonicalName (Engine.schema abi).frameTypes field = p.name :=
  canonicalName_tableOf hp (fun q hq hqp => abi.oneName q (TargetAbi.mem_of_mem_frameActionParams hq)
    p (TargetAbi.mem_of_mem_frameActionParams hp) hqp) h

/-! ## Reading a record -/

/-- The record is accepted under the declared name `canonical`. -/
def FieldRead (types : Values) (bounds : Std.ExtTreeMap Text (ℤ × ℤ) compare)
    (lengths : Std.ExtTreeMap Text ℕ compare) (wides : Std.ExtTreeMap Text Bool compare)
    (field kind value canonical : Text) : Prop :=
  canonical = canonicalName types field ∧
    (types.isEmpty = false → types.contains canonical = true) ∧
    (∀ expected, types[canonical]? = some expected → kind ≠ [] → expected = kind) ∧
    (∀ min max, bounds[canonical]? = some (min, max) →
      ∃ number, numericValue value = some number ∧ min ≤ number ∧ number ≤ max) ∧
    ∀ max, lengths[canonical]? = some max →
      (if wides[canonical]?.getD false then utf16Length value else value.length) ≤ max

theorem checkField_iff_fieldRead {types : Values} {bounds : Std.ExtTreeMap Text (ℤ × ℤ) compare}
    {lengths : Std.ExtTreeMap Text ℕ compare} {wides : Std.ExtTreeMap Text Bool compare}
    {unknown : FrameError} {field canonical : Text} :
    checkField types bounds lengths wides unknown line field kind value = .ok canonical ↔
      FieldRead types bounds lengths wides field kind value canonical := by
  rw [checkField_eq_ok, checkKnown_eq_ok, checkType_eq_ok, checkNumericDomain_eq_ok,
    checkStringDomain_eq_ok]
  rfl

/-- The assignment of an accepted record. -/
inductive Reads (schema : FrameSchema) (name kind value : Text) : Assignment → Prop
  | init (hname : eqIgnoreAsciiCase name reservedInit = true)
      (hkind : kind = [] ∨ kind = "ENUM".toList) (hvalue : value = "cold".toList) :
      Reads schema name kind value .init
  | shared {canonical : Text} (hname : eqIgnoreAsciiCase name reservedInit = false)
      (hdot : '.' ∉ name)
      (hfield : FieldRead schema.sharedTypes schema.sharedBounds schema.sharedStringLengths
        schema.sharedStringWide name kind value canonical) :
      Reads schema name kind value (.shared canonical value)
  | dt {index field : Text} {cycle ns : ℕ} (hname : eqIgnoreAsciiCase name reservedInit = false)
      (hsplit : splitOnce '.' name = some (index, field))
      (hindex : parseUnsigned u32Max index = some cycle)
      (hdt : eqIgnoreAsciiCase field reservedDt = true) (hkind : kind = [] ∨ kind = "TIME".toList)
      (hvalue : parseUnsigned u64Max value = some ns) :
      Reads schema name kind value (.dt cycle ns)
  | field {index field : Text} {cycle : ℕ} {canonical : Text}
      (hname : eqIgnoreAsciiCase name reservedInit = false)
      (hsplit : splitOnce '.' name = some (index, field))
      (hindex : parseUnsigned u32Max index = some cycle)
      (hdt : eqIgnoreAsciiCase field reservedDt = false)
      (hfield : FieldRead schema.frameTypes schema.frameBounds schema.frameStringLengths
        schema.frameStringWide field kind value canonical) :
      Reads schema name kind value (.field cycle canonical value)

/-- The frame of an assignment is the last one, or the next one. -/
def InOrder (st : ParseState) (a : Assignment) : Prop :=
  ∀ cycle, a.cycle = some cycle →
    st.testCase.frames.getLast?.map Frame.index = some cycle ∨ cycle = st.expectedIndex

theorem inOrder_of_cycle_none (h : a.cycle = none) : InOrder st a := fun cycle hc => by
  rw [h] at hc
  cases hc

/-- What the parser stores. -/
def assign (schema : FrameSchema) (st : ParseState) : Assignment → ParseState
  | .init => { st with testCase := { st.testCase with initProfile := "cold".toList } }
  | .shared name value => { st with
      testCase := { st.testCase with shared := st.testCase.shared.insert name value } }
  | .dt cycle ns =>
    let st := openFrame schema st cycle
    { st with testCase := modifyLastFrame (fun f => { f with dtNs := some ns.toNat }) st.testCase }
  | .field cycle name value => setField (openFrame schema st cycle) cycle name value

/-- **A record is accepted** when it is read as an assignment to a frame in order. -/
theorem parseRecord_eq_ok : parseRecord schema st line name kind value = .ok st' ↔
    ∃ a, Reads schema name kind value a ∧ InOrder st a ∧ st' = assign schema st a := by
  rw [parseRecord_cases]
  constructor
  · rintro (⟨hname, h⟩ | ⟨hname, hdot, h⟩ | ⟨hname, index, field, cycle, hsplit, hindex, h⟩)
    · obtain ⟨hkind, hvalue, rfl⟩ := parseInit_eq_ok.1 h
      exact ⟨.init, .init hname hkind hvalue, inOrder_of_cycle_none rfl, rfl⟩
    · obtain ⟨canonical, hcheck, rfl⟩ := parseShared_eq_ok.1 h
      exact ⟨_, .shared hname hdot (checkField_iff_fieldRead.1 hcheck), inOrder_of_cycle_none rfl,
        rfl⟩
    · obtain ⟨horder, h⟩ := parseFrameField_eq_ok.1 h
      split at h
      · rename_i hdt
        obtain ⟨hkind, ns, hvalue, rfl⟩ := parseDt_eq_ok.1 h
        refine ⟨_, .dt hname hsplit hindex hdt hkind hvalue, fun c hc => ?_, rfl⟩
        rwa [← Option.some.inj hc]
      · rename_i hdt
        obtain ⟨canonical, hcheck, rfl⟩ := h
        refine ⟨_, .field hname hsplit hindex (by simpa using hdt)
          (checkField_iff_fieldRead.1 hcheck), fun c hc => ?_, rfl⟩
        rwa [← Option.some.inj hc]
  · rintro ⟨a, hread, horder, rfl⟩
    cases hread with
    | init hname hkind hvalue =>
      exact .inl ⟨hname, parseInit_eq_ok.2 ⟨hkind, hvalue, rfl⟩⟩
    | shared hname hdot hfield =>
      exact .inr (.inl ⟨hname, hdot, parseShared_eq_ok.2
        ⟨_, checkField_iff_fieldRead.2 hfield, rfl⟩⟩)
    | dt hname hsplit hindex hdt hkind hvalue =>
      refine .inr (.inr ⟨hname, _, _, _, hsplit, hindex, parseFrameField_eq_ok.2 ⟨horder _ rfl, ?_⟩⟩)
      rw [if_pos hdt]
      exact parseDt_eq_ok.2 ⟨hkind, _, hvalue, rfl⟩
    | field hname hsplit hindex hdt hfield =>
      refine .inr (.inr ⟨hname, _, _, _, hsplit, hindex, parseFrameField_eq_ok.2 ⟨horder _ rfl, ?_⟩⟩)
      rw [if_neg (by simp [hdt])]
      exact ⟨_, checkField_iff_fieldRead.2 hfield, rfl⟩

/-! ## Reading a text -/

/-- A line without a record. -/
def Skipped (raw : Text) : Prop :=
  trim isWhitespace raw = [] ∨ (trim isWhitespace raw).head? = some '#'

/-- The assignments of the lines of a text. -/
inductive ReadsLines (schema : FrameSchema) : List Text → List Assignment → Prop
  | nil : ReadsLines schema [] []
  | skip {raw : Text} {raws : List Text} {rs : List Assignment} (hskip : Skipped raw)
      (hrest : ReadsLines schema raws rs) : ReadsLines schema (raw :: raws) rs
  | cons {raw : Text} {raws : List Text} {a : Assignment} {rs : List Assignment}
      {name kind value : Text} (hrecord : lineRecord raw = some (name, kind, value))
      (hread : Reads schema name kind value a) (hrest : ReadsLines schema raws rs) :
      ReadsLines schema (raw :: raws) (a :: rs)

/-- Every assignment comes in order. -/
inductive Ordered (schema : FrameSchema) : ParseState → List Assignment → Prop
  | nil (st : ParseState) : Ordered schema st []
  | cons {st : ParseState} {a : Assignment} {rs : List Assignment} (ha : InOrder st a)
      (hrest : Ordered schema (assign schema st a) rs) : Ordered schema st (a :: rs)

theorem parseLines_eq_ok {raws : List Text} :
    (raws.zipIdx line).foldlM (fun st p => parseLine schema st p.2 p.1) st = .ok st' ↔
      ∃ rs, ReadsLines schema raws rs ∧ Ordered schema st rs ∧
        st' = rs.foldl (assign schema) st := by
  induction raws generalizing line st with
  | nil =>
    rw [List.zipIdx_nil, foldlM_nil_eq_ok]
    constructor
    · rintro rfl
      exact ⟨[], .nil, .nil st, rfl⟩
    · rintro ⟨rs, hread, -, rfl⟩
      cases hread
      rfl
  | cons raw raws ih =>
    rw [List.zipIdx_cons, foldlM_cons_eq_ok]
    constructor
    · rintro ⟨st₁, h₁, h₂⟩
      obtain ⟨rs, hread, horder, rfl⟩ := ih.1 h₂
      rcases parseLine_eq_ok.1 h₁ with ⟨hskip, rfl⟩ | ⟨name, kind, value, hrecord, h₁⟩
      · exact ⟨rs, .skip hskip hread, horder, rfl⟩
      · obtain ⟨a, ha, hin, rfl⟩ := parseRecord_eq_ok.1 h₁
        exact ⟨a :: rs, .cons hrecord ha hread, .cons hin horder, rfl⟩
    · rintro ⟨rs, hread, horder, rfl⟩
      cases hread with
      | skip hskip hrest =>
        exact ⟨st, parseLine_eq_ok.2 (.inl ⟨hskip, rfl⟩), ih.2 ⟨rs, hrest, horder, rfl⟩⟩
      | cons hrecord ha hrest =>
        cases horder with
        | cons hin horder =>
          exact ⟨_, parseLine_eq_ok.2 (.inr ⟨_, _, _, hrecord, parseRecord_eq_ok.2
            ⟨_, ha, hin, rfl⟩⟩), ih.2 ⟨_, hrest, horder, rfl⟩⟩

/-! ## What is stored -/

/-- The state holds what the assignments `rs` say of `n` frames. -/
structure Stored (rs : List Assignment) (n : ℕ) (st : ParseState) : Prop where
  init : st.testCase.initProfile = "cold".toList
  shared : st.testCase.shared = sharedOf rs
  frames : st.testCase.frames.length = n
  explicitFields : st.explicitFields.length = n
  expectedIndex : st.expectedIndex = n
  index : ∀ (i : ℕ) (f : Frame), st.testCase.frames[i]? = some f → f.index = i
  dt : ∀ (i : ℕ) (f : Frame), st.testCase.frames[i]? = some f → f.dtNs.map Int.ofNat = dtOf rs i
  explicit : ∀ (i : ℕ) (names : List Text), st.explicitFields[i]? = some names →
    ∀ name, name ∈ names ↔ name ∈ (fieldsOf rs i).map Prod.fst
  values : ∀ (i : ℕ) (f : Frame), st.testCase.frames[i]? = some f →
    ∀ name value, lastValue (fieldsOf rs i) name = some value → f.values[name]? = some value

theorem stored_initState (schema : FrameSchema) : Stored [] 0 (initState schema) where
  init := rfl
  shared := rfl
  frames := rfl
  explicitFields := rfl
  expectedIndex := rfl
  index i f h := by simp [initState] at h
  dt i f h := by simp [initState] at h
  explicit i names h := by simp [initState] at h
  values i f h := by simp [initState] at h

theorem getElem?_concat_eq {α : Type} {l : List α} {b c : α} (h : (l ++ [b])[i]? = some c) :
    l[i]? = some c ∨ (i = l.length ∧ c = b) := by
  rw [List.getElem?_append] at h
  split at h
  · exact .inl h
  · rename_i hi
    rw [List.getElem?_singleton] at h
    split at h
    · exact .inr ⟨by omega, (Option.some.inj h).symm⟩
    · cases h

/-- An element of a list whose last one is changed. -/
theorem getElem?_modifyLast {α : Type} {f : α → α} {l : List α} {c : α}
    (h : (l.modifyLast f)[i]? = some c) :
    ∃ b, l[i]? = some b ∧ c = if i + 1 = l.length then f b else b := by
  induction l using List.reverseRecOn with
  | nil => cases h
  | append_singleton l b _ =>
    rw [List.modifyLast_concat] at h
    rcases getElem?_concat_eq h with h | ⟨rfl, rfl⟩
    · have hi := (List.getElem?_eq_some_iff.1 h).1
      refine ⟨c, by rw [List.getElem?_append_left hi, h], ?_⟩
      rw [if_neg (by simp; omega)]
    · exact ⟨b, by simp, by simp⟩

theorem length_modifyLast {α : Type} (f : α → α) (l : List α) : (l.modifyLast f).length = l.length := by
  induction l using List.reverseRecOn with
  | nil => rfl
  | append_singleton l b _ => rw [List.modifyLast_concat, List.length_append, List.length_append]; rfl

/-- Opening a frame: the last one stays, the next one is new. -/
theorem Stored.openFrame (h : Stored rs n st) (hcount : FrameCount rs n) {cycle : ℕ}
    (hc : cycle ≤ n) : Stored rs (max n (cycle + 1)) (openFrame schema st cycle) := by
  unfold Engine.openFrame
  rw [h.frames]
  split
  · obtain rfl : cycle = n := by omega
    rw [max_eq_right (Nat.le_succ _)]
    have hnil := hcount.fieldsOf_eq_nil le_rfl
    refine ⟨h.init, h.shared, by simp [h.frames], by simp [h.explicitFields], rfl,
      fun i f hf => ?_, fun i f hf => ?_, fun i names hn => ?_, fun i f hf name value hv => ?_⟩
    · rcases getElem?_concat_eq hf with hf | ⟨rfl, rfl⟩
      · exact h.index i f hf
      · exact h.frames.symm
    · rcases getElem?_concat_eq hf with hf | ⟨rfl, rfl⟩
      · exact h.dt i f hf
      · rw [h.frames, hcount.dtOf_eq_none le_rfl]
        rfl
    · rcases getElem?_concat_eq hn with hn | ⟨rfl, rfl⟩
      · exact h.explicit i names hn
      · simp [h.explicitFields, hnil]
    · rcases getElem?_concat_eq hf with hf | ⟨rfl, rfl⟩
      · exact h.values i f hf name value hv
      · rw [h.frames, hnil] at hv
        cases hv
  · rw [max_eq_left (by omega)]
    exact h

/-- An assignment is in order when it belongs to the last frame or to the next one. -/
theorem Stored.inOrder_iff (h : Stored rs n st) :
    InOrder st a ↔ ∀ cycle, a.cycle = some cycle → cycle + 1 = n ∨ cycle = n := by
  refine forall₂_congr fun cycle _ => ?_
  rw [h.expectedIndex, List.getLast?_eq_getElem?, h.frames]
  refine or_congr_left ⟨fun hlast => ?_, fun hn => ?_⟩
  · obtain ⟨f, hf, rfl⟩ := Option.map_eq_some_iff.1 hlast
    have hi := h.index _ f hf
    have hlt := (List.getElem?_eq_some_iff.1 hf).1
    rw [h.frames] at hlt
    omega
  · have hlt : n - 1 < st.testCase.frames.length := by
      rw [h.frames]
      omega
    have hf := List.getElem?_eq_getElem hlt
    have hi := h.index _ _ hf
    rw [hf, Option.map_some, hi]
    exact congrArg some (by omega)

theorem Stored.assignDt {cycle : ℕ} {ns : ℤ} (h : Stored rs (cycle + 1) st) (hns : 0 ≤ ns) :
    Stored (rs ++ [.dt cycle ns]) (cycle + 1)
      { st with testCase := modifyLastFrame (fun f => { f with dtNs := some ns.toNat }) st.testCase } := by
  have hfields (i : ℕ) : fieldsOf (rs ++ [.dt cycle ns]) i = fieldsOf rs i := by
    rw [fieldsOf_concat]
    exact List.append_nil _
  refine ⟨h.init, by rw [sharedOf_concat]; exact h.shared, by rw [modifyLastFrame, length_modifyLast, h.frames],
    h.explicitFields, h.expectedIndex, fun i f hf => ?_, fun i f hf => ?_, fun i names hn => ?_,
    fun i f hf name value hv => ?_⟩
  · obtain ⟨b, hb, rfl⟩ := getElem?_modifyLast hf
    rw [← h.index i b hb]
    split <;> rfl
  · obtain ⟨b, hb, rfl⟩ := getElem?_modifyLast hf
    rw [h.frames, dtOf_concat]
    change _ = (lastValue [(cycle, ns)] i).or (dtOf rs i)
    rw [lastValue_singleton]
    by_cases hi : i = cycle
    · subst hi
      simp [Int.toNat_of_nonneg hns]
    · rw [if_neg (by omega), if_neg (Ne.symm hi), Option.none_or]
      exact h.dt i b hb
  · rw [hfields]
    exact h.explicit i names hn
  · obtain ⟨b, hb, rfl⟩ := getElem?_modifyLast hf
    rw [hfields] at hv
    have hold := h.values i b hb name value hv
    split <;> exact hold

theorem Stored.assignField {cycle : ℕ} {name value : Text} (h : Stored rs (cycle + 1) st) :
    Stored (rs ++ [.field cycle name value]) (cycle + 1) (setField st cycle name value) := by
  have hfields (i : ℕ) : fieldsOf (rs ++ [.field cycle name value]) i =
      fieldsOf rs i ++ if cycle = i then [(name, value)] else [] := by
    rw [fieldsOf_concat]
    by_cases hi : cycle = i <;> simp [Assignment.toField, hi]
  refine ⟨h.init, by rw [sharedOf_concat]; exact h.shared,
    by rw [setField, modifyLastFrame, length_modifyLast, h.frames], by simp [setField, h.explicitFields],
    h.expectedIndex, fun i f hf => ?_, fun i f hf => ?_, fun i names hn => ?_,
    fun i f hf name' value' hv => ?_⟩
  · obtain ⟨b, hb, rfl⟩ := getElem?_modifyLast hf
    rw [← h.index i b hb]
    split <;> rfl
  · obtain ⟨b, hb, rfl⟩ := getElem?_modifyLast hf
    rw [dtOf_concat]
    change _ = (lastValue [] i).or (dtOf rs i)
    rw [lastValue_nil, Option.none_or, ← h.dt i b hb]
    split <;> rfl
  · simp only [setField, List.getElem?_modify] at hn
    obtain ⟨names₀, hn₀, rfl⟩ := Option.map_eq_some_iff.1 hn
    intro name'
    have hold := h.explicit i names₀ hn₀ name'
    rw [hfields]
    by_cases hi : cycle = i
    · simp only [hi, if_true, List.mem_insert_iff, hold, List.map_append, List.mem_append]
      simp [or_comm]
    · simpa [hi] using hold
  · obtain ⟨b, hb, rfl⟩ := getElem?_modifyLast hf
    rw [hfields] at hv
    rw [h.frames]
    by_cases hi : cycle = i
    · subst hi
      rw [if_pos rfl, lastValue_concat] at hv
      rw [if_pos rfl, getElem?_insert_eq]
      split at hv
      · rename_i heq
        rw [if_pos heq, ← Option.some.inj hv]
      · rename_i hne
        rw [if_neg hne]
        exact h.values cycle b hb name' value' hv
    · rw [if_neg hi, List.append_nil] at hv
      rw [if_neg (by omega)]
      exact h.values i b hb name' value' hv

/-- The number of frames after an assignment. -/
def countAfter (n : ℕ) (a : Assignment) : ℕ := a.cycle.elim n fun i => max n (i + 1)

/-- The time step of an assignment is not negative. -/
def Assignment.NonnegDt (a : Assignment) : Prop := ∀ i ns, a = .dt i ns → 0 ≤ ns

theorem Reads.nonnegDt (h : Reads schema name kind value a) : Assignment.NonnegDt a := by
  rintro i ns rfl
  cases h
  exact Int.natCast_nonneg _

/-- **One record**: what it assigns is stored. -/
theorem Stored.assign (h : Stored rs n st) (hcount : FrameCount rs n) (hin : InOrder st a)
    (hdt : Assignment.NonnegDt a) :
    Stored (rs ++ [a]) (countAfter n a) (assign schema st a) ∧
      FrameCount (rs ++ [a]) (countAfter n a) := by
  have hin := h.inOrder_iff.1 hin
  refine ⟨?_, hcount.concat fun i hi => by have := hin i hi; omega⟩
  have hfields {a : Assignment} (ha : ∀ i, a.toField i = none) (i : ℕ) :
      fieldsOf (rs ++ [a]) i = fieldsOf rs i := by
    rw [fieldsOf_concat, ha]
    exact List.append_nil _
  have hopen {cycle : ℕ} (hc : cycle + 1 = n ∨ cycle = n) :
      countAfter n (.dt cycle 0) = cycle + 1 ∧
        Stored rs (cycle + 1) (Engine.openFrame schema st cycle) := by
    have hn : max n (cycle + 1) = cycle + 1 := max_eq_right (by omega)
    exact ⟨hn, hn ▸ h.openFrame hcount (by omega)⟩
  cases a with
  | init =>
    refine ⟨rfl, by rw [sharedOf_concat]; exact h.shared, h.frames, h.explicitFields,
      h.expectedIndex, h.index, fun i f hf => ?_, fun i names hn => ?_, fun i f hf => ?_⟩
    · rw [dtOf_concat]
      exact h.dt i f hf
    · rw [hfields fun _ => rfl]
      exact h.explicit i names hn
    · rw [hfields fun _ => rfl]
      exact h.values i f hf
  | shared name value =>
    refine ⟨h.init, by rw [sharedOf_concat, ← h.shared]; rfl, h.frames, h.explicitFields,
      h.expectedIndex, h.index, fun i f hf => ?_, fun i names hn => ?_, fun i f hf => ?_⟩
    · rw [dtOf_concat]
      exact h.dt i f hf
    · rw [hfields fun _ => rfl]
      exact h.explicit i names hn
    · rw [hfields fun _ => rfl]
      exact h.values i f hf
  | dt cycle ns =>
    obtain ⟨hn, hst⟩ := hopen (hin cycle rfl)
    change Stored _ (countAfter n (.dt cycle 0)) _
    rw [hn]
    exact hst.assignDt (hdt cycle ns rfl)
  | field cycle name value =>
    obtain ⟨hn, hst⟩ := hopen (hin cycle rfl)
    change Stored _ (countAfter n (.dt cycle 0)) _
    rw [hn]
    exact hst.assignField

theorem Stored.foldl {rs' : List Assignment} (h : Stored rs n st) (hcount : FrameCount rs n)
    (hord : Ordered schema st rs') (hdt : ∀ a ∈ rs', Assignment.NonnegDt a) :
    ∃ m, Stored (rs ++ rs') m (rs'.foldl (Engine.assign schema) st) ∧ FrameCount (rs ++ rs') m := by
  induction rs' generalizing rs n st with
  | nil => exact ⟨n, by simpa using h, by simpa using hcount⟩
  | cons a rs' ih =>
    cases hord with
    | cons hin hrest =>
      obtain ⟨h', hcount'⟩ := h.assign hcount hin (hdt a List.mem_cons_self)
      obtain ⟨m, hm, hmc⟩ := ih h' hcount' hrest fun b hb => hdt b (List.mem_cons_of_mem _ hb)
      exact ⟨m, by simpa using hm, by simpa using hmc⟩

/-! ## The expanded frames -/

theorem seedValues_eq_seeded (schema : FrameSchema) (shared : Values) :
    seedValues schema shared = seeded schema.frameDefaults shared := by
  have hfold : seedValues schema shared = insertAll schema.frameDefaults
      (shared.toList.filter fun p => schema.frameDefaults.contains p.1) := by
    rw [seedValues, Std.ExtTreeMap.foldl_eq_foldl_toList, insertAll, List.foldl_filter]
  apply Std.ExtTreeMap.ext_getElem?
  intro k
  rw [hfold, getElem?_insertAll, lastValue_filter, lastValue_toList, getElem?_seeded]
  cases hk : schema.frameDefaults[k]? with
  | none =>
    have hc : schema.frameDefaults.contains k = false := by
      rw [Std.ExtTreeMap.contains_eq_isSome_getElem?, hk]
      rfl
    simp [hc]
  | some v =>
    have hc : schema.frameDefaults.contains k = true := by
      rw [Std.ExtTreeMap.contains_eq_isSome_getElem?, hk]
      rfl
    cases hs : shared[k]? <;> simp [hc]

theorem withDefaults_eq_self {m : Values}
    (h : ∀ k : Text, (schema.frameDefaults[k]?).isSome → (m[k]?).isSome) :
    withDefaults schema m = m := by
  refine foldl_insertIfNew_eq_self id fun k hk => h k ?_
  rw [← Std.ExtTreeMap.mem_iff_isSome_getElem?]
  exact Std.ExtTreeMap.mem_of_mem_keys hk

/-- The values a frame keeps of its own. -/
theorem getElem?_copyFields (values inherited : Values) (names : List Text) (k : Text) :
    (copyFields values names inherited)[k]? =
      if k ∈ names then (values[k]?).or inherited[k]? else inherited[k]? := by
  induction names using List.reverseRecOn with
  | nil => rfl
  | append_singleton names name ih =>
    rw [copyFields, List.foldl_append, List.foldl_cons, List.foldl_nil, ← copyFields]
    by_cases hk : name = k
    · subst hk
      cases hv : values[name]? with
      | none => simp [ih, hv]
      | some v => simp
    · have hmem : k ∈ names ++ [name] ↔ k ∈ names := by simp [Ne.symm hk]
      simp only [hmem]
      cases hv : values[name]? with
      | none => exact ih
      | some v => simp only [getElem?_insert_eq, if_neg hk, ih]

/-- A frame with what the result of the parser says of it. -/
def Frame.data (f : Frame) : ℕ × Values × Option ℤ := (f.index, f.values, f.dtNs.map Int.ofNat)

theorem Stored.expandFrame (h : Stored rs n st) {names : List Text} {f : Frame}
    (hf : st.testCase.frames[i]? = some f) (hn : st.explicitFields[i]? = some names) :
    (Engine.expandFrame schema (inheritedAt schema.frameDefaults rs i) names f).data =
      frameAt schema.frameDefaults rs i := by
  have hvalues : copyFields f.values names (inheritedAt schema.frameDefaults rs i) =
      valuesAt schema.frameDefaults rs i := by
    apply Std.ExtTreeMap.ext_getElem?
    intro k
    rw [getElem?_copyFields, valuesAt, getElem?_insertAll]
    cases hk : lastValue (fieldsOf rs i) k with
    | none =>
      rw [if_neg fun hmem => lastValue_eq_none_iff.1 hk ((h.explicit i names hn k).1 hmem),
        Option.none_or]
    | some v =>
      have hmem : k ∈ (fieldsOf rs i).map Prod.fst := List.mem_map.2 ⟨_, mem_of_lastValue hk, rfl⟩
      rw [if_pos ((h.explicit i names hn k).2 hmem), h.values i f hf k v hk]
  have hdefaults : withDefaults schema (valuesAt schema.frameDefaults rs i) =
      valuesAt schema.frameDefaults rs i := withDefaults_eq_self fun k hk => isSome_valuesAt i hk
  simp only [Frame.data, Engine.expandFrame, frameAt, hvalues, hdefaults, h.index i f hf, h.dt i f hf]

theorem Stored.expandFrames (h : Stored rs n st) :
    (Engine.expandFrames schema (seedValues schema st.testCase.shared) st.explicitFields
      st.testCase.frames).map Frame.data = (List.range n).map (frameAt schema.frameDefaults rs) := by
  have hrun : ∀ (names : List (List Text)) (frames : List Frame) (i : ℕ),
      st.explicitFields.drop i = names → st.testCase.frames.drop i = frames → i + frames.length = n →
      (Engine.expandFrames schema (inheritedAt schema.frameDefaults rs i) names frames).map Frame.data =
        (List.range' i frames.length).map (frameAt schema.frameDefaults rs) := by
    intro names frames
    induction frames generalizing names with
    | nil =>
      intro i _ _ _
      cases names <;> rfl
    | cons f frames ih =>
      intro i hnames hframes hlen
      have hf : st.testCase.frames[i]? = some f := by
        rw [← List.head?_drop, hframes]
        rfl
      have hi := (List.getElem?_eq_some_iff.1 hf).1
      rw [h.frames, ← h.explicitFields] at hi
      have hn := List.getElem?_eq_getElem hi
      have hcons := List.drop_eq_getElem_cons hi
      rw [hnames] at hcons
      subst hcons
      have hdata : (Engine.expandFrame schema _ _ f).data = _ := h.expandFrame hf hn
      have hrest := ih (st.explicitFields.drop (i + 1)) (i + 1) rfl
        (by rw [← List.drop_drop, hframes]; rfl) (by simp only [List.length_cons] at hlen; omega)
      have hvalues : (Engine.expandFrame schema (inheritedAt schema.frameDefaults rs i)
          st.explicitFields[i] f).values = inheritedAt schema.frameDefaults rs (i + 1) :=
        congrArg (fun d : ℕ × Values × Option ℤ => d.2.1) hdata
      rw [List.length_cons, List.range'_succ, List.map_cons, Engine.expandFrames, List.map_cons, hdata]
      simp only [hvalues, hrest]
  have hall := hrun st.explicitFields st.testCase.frames 0 rfl rfl (by rw [h.frames]; omega)
  rw [seedValues_eq_seeded, h.shared]
  rw [h.frames, ← List.range_eq_range'] at hall
  exact hall

theorem frame_complete {rs : List Assignment} {f : Frame}
    (hf : f.data ∈ (List.range n).map (frameAt schema.frameDefaults rs)) :
    checkComplete schema f = .ok () := by
  obtain ⟨i, -, hi⟩ := List.mem_map.1 hf
  have hvalues : f.values = valuesAt schema.frameDefaults rs i :=
    (congrArg (fun d : ℕ × Values × Option ℤ => d.2.1) hi).symm
  unfold checkComplete
  have hnone : (schema.frameDefaults.keys.find? fun name => !f.values.contains name) = none := by
    refine List.find?_eq_none.2 fun k hk => ?_
    have hdefault := Std.ExtTreeMap.mem_of_mem_keys hk
    rw [Std.ExtTreeMap.mem_iff_isSome_getElem?] at hdefault
    have hsome : ((valuesAt schema.frameDefaults rs i)[k]?).isSome := isSome_valuesAt i hdefault
    rw [← hvalues, ← Std.ExtTreeMap.contains_eq_isSome_getElem?] at hsome
    simp [hsome]
  rw [hnone]

theorem Frame.data_injective : Function.Injective Frame.data := by
  rintro ⟨index, values, dt⟩ ⟨index', values', dt'⟩ h
  simp only [Frame.data, Prod.mk.injEq] at h
  obtain ⟨rfl, rfl, h⟩ := h
  rw [Option.map_injective (fun a b hab => Int.ofNat.inj hab) h]

theorem ReadsLines.nonnegDt {raws : List Text} (h : ReadsLines schema raws rs) :
    ∀ a ∈ rs, Assignment.NonnegDt a := by
  induction h with
  | nil => simp
  | skip _ _ ih => exact ih
  | cons _ hread _ ih =>
    intro a ha
    rcases List.mem_cons.1 ha with rfl | ha
    · exact hread.nonnegDt
    · exact ih a ha

theorem forM_eq_ok {α ε : Type} {f : α → Except ε PUnit} {l : List α} (h : ∀ a ∈ l, f a = .ok ⟨⟩) :
    l.forM f = .ok ⟨⟩ := by
  induction l with
  | nil => rfl
  | cons a l ih =>
    change (f a >>= fun _ => l.forM f) = .ok ⟨⟩
    rw [h a List.mem_cons_self]
    exact ih fun b hb => h b (List.mem_cons_of_mem _ hb)

/-- **What the engine's parser accepts, and what it makes of it**: lines that are read as
assignments in order, and the testcase these say. -/
theorem parseTestcase_iff {text : Text} {case : TestCase} :
    parseTestcase text schema = .ok case ↔
      ∃ rs n, ReadsLines schema (lines text) rs ∧ Ordered schema (initState schema) rs ∧
        FrameCount rs n ∧ case.initProfile = "cold".toList ∧ case.shared = sharedOf rs ∧
        case.frames.map Frame.data = (List.range n).map (frameAt schema.frameDefaults rs) := by
  have hcount : FrameCount [] 0 := fun i => by simp
  rw [parseTestcase_eq_ok]
  constructor
  · rintro ⟨st, hst, hinit, hshared, hframes, -⟩
    obtain ⟨rs, hread, hord, rfl⟩ := parseLines_eq_ok.1 hst
    obtain ⟨n, hstored, hn⟩ := (stored_initState schema).foldl hcount hord hread.nonnegDt
    exact ⟨rs, n, hread, hord, hn, hinit.trans hstored.init, hshared.trans hstored.shared,
      hframes ▸ hstored.expandFrames⟩
  · rintro ⟨rs, n, hread, hord, hn, hinit, hshared, hframes⟩
    obtain ⟨m, hstored, hm⟩ := (stored_initState schema).foldl hcount hord hread.nonnegDt
    obtain rfl : n = m := hn.unique hm
    refine ⟨_, parseLines_eq_ok.2 ⟨rs, hread, hord, rfl⟩, hinit.trans hstored.init.symm,
      hshared.trans hstored.shared.symm, ?_, forM_eq_ok fun f hf => ?_⟩
    · exact Frame.data_injective.list_map (hframes.trans hstored.expandFrames.symm)
    · exact frame_complete (hframes ▸ List.mem_map_of_mem hf)

end SemantiST.Engine
