import SemantiST.Corpus.Agreement
import SemantiST.Corpus.RoundTrip

/-!
# Canonical texts of accepted testcases

What the parser accepts is legible, and its canonical text is parsed to the same testcase again.
-/

namespace SemantiST.Corpus

open Lib

/-- `canonicalize`, before the text is encoded. -/
def canonicalize (u : UnicodeData) (text : Text) (abi : TargetAbi) (scanPeriodNs : ℤ) (dtRangeNs : Option (ℤ × ℤ))
    (includeDt : Bool) : Except FrameFormatError Text := do
  let testcase ← parseTestcase u text abi scanPeriodNs dtRangeNs
  return testcase.canonical includeDt

/-! ## What is read -/

/-- An assignment of declared names, plain values and short frame numbers. -/
def Sound (abi : TargetAbi) : Assignment → Prop
  | .init => True
  | .shared name value => name ∈ abi.sharedParams.map Param.name ∧ Plain value
  | .dt i _ => i < indexBound
  | .field i name value => i < indexBound ∧ name ∈ abi.frameActionParams.map Param.name ∧ Plain value

section Sound

variable {u : UnicodeData} {abi : TargetAbi} {text raw : Text} {rs : List Assignment} {a : Assignment} {n : ℕ}

/-- **What is read of a line is sound.** -/
theorem sound_of_readLine (hraw : ∀ c ∈ raw, isLineBreak c = false) (h : readLine u abi raw = .ok (some a)) :
    Sound abi a := by
  obtain ⟨name, ty, value, -, hsplit, hcase⟩ := readLine_eq_some h
  obtain ⟨n, rest, t, v, hline, hrest, -, -, -, rfl⟩ := splitRecord_eq_ok hsplit
  have hplain : Plain (trim isSpace v) := by
    refine ⟨trimmed_trim _ _, fun c hc => hraw c ?_⟩
    obtain ⟨htrim, -⟩ := splitOnce_eq_some_iff.1 hline
    obtain ⟨hrest, -⟩ := splitOnce_eq_some_iff.1 hrest
    apply mem_of_mem_trim
    rw [htrim, hrest]
    exact List.mem_append_right _ (List.mem_cons_of_mem _ (List.mem_append_right _
      (List.mem_cons_of_mem _ (mem_of_mem_trim hc))))
  rcases hcase with ⟨-, hshared⟩ | ⟨digits, field, cycle, -, hcycle, hframe⟩
  · rcases readShared_eq_ok.1 hshared with ⟨-, -, -, rfl⟩ | ⟨-, p, hp, -, rfl⟩
    · trivial
    · exact ⟨List.mem_map_of_mem (mem_of_byUpperName hp).1, hplain⟩
  · rcases readFrame_eq_ok.1 hframe with ⟨-, -, dt, -, rfl⟩ | ⟨-, p, hp, -, rfl⟩
    · exact int_lt_indexBound hcycle
    · exact ⟨int_lt_indexBound hcycle, List.mem_map_of_mem (mem_of_byUpperName hp).1, hplain⟩

theorem sound_of_mem_assignments (h : a ∈ assignments u abi (splitlines text)) : Sound abi a := by
  obtain ⟨raw, hraw, ha⟩ := List.mem_filterMap.1 h
  apply sound_of_readLine (notBreak_of_mem_splitlines hraw)
  rcases hread : readLine u abi raw with e | o
  · rw [hread] at ha
    cases ha
  · rw [hread] at ha
    rw [show o = some a from ha]

theorem plain_defaultFor (spec : TypeSpec) : Plain spec.defaultFor := by
  cases spec with
  | scalar t => cases t <;> decide
  | string wide length => exact (by decide : Plain "A".toList)
  | array element count => exact (by decide : Plain "0x00".toList)
  | pointer element => exact (by decide : Plain "0x00".toList)
  | aggregate name size => exact (by decide : Plain "0x00".toList)

/-- Every value of a map is plain. -/
def AllPlain (values : Values) : Prop := ∀ k v : Text, values[k]? = some v → Plain v

theorem AllPlain.insertAll {values : Values} {l : List (Text × Text)} (h : AllPlain values)
    (hl : ∀ entry ∈ l, Plain entry.2) : AllPlain (insertAll values l) := by
  intro k v hv
  rw [getElem?_insertAll] at hv
  rcases hlast : lastValue l k with _ | w
  · rw [hlast, Option.none_or] at hv
    exact h k v hv
  · rw [hlast, Option.some_or] at hv
    rw [← Option.some.inj hv]
    exact hl _ (mem_of_lastValue hlast)

variable (hsound : ∀ a ∈ rs, Sound abi a)
include hsound

theorem allPlain_sharedOf : AllPlain (sharedOf rs) := by
  refine AllPlain.insertAll (fun k v hv => by simp at hv) fun entry hentry => ?_
  obtain ⟨a, ha, heq⟩ := List.mem_filterMap.1 hentry
  cases a with
  | shared name value =>
    obtain rfl := Option.some.inj heq
    exact (hsound _ ha).2
  | _ => cases heq

theorem mem_names_of_sharedOf {k : Text} (h : k ∈ sharedOf rs) : k ∈ abi.sharedParams.map Param.name := by
  obtain ⟨v, hv⟩ := Option.isSome_iff_exists.1 (Std.ExtTreeMap.mem_iff_isSome_getElem?.1 h)
  rw [sharedOf, getElem?_insertAll] at hv
  have hlast : lastValue (rs.filterMap Assignment.toShared) k = some v := by simpa using hv
  obtain ⟨a, ha, heq⟩ := List.mem_filterMap.1 (mem_of_lastValue hlast)
  cases a with
  | shared name value =>
    obtain ⟨rfl, rfl⟩ := Prod.mk.inj (Option.some.inj heq)
    exact (hsound _ ha).1
  | _ => cases heq

theorem plain_fieldsOf {i : ℕ} : ∀ entry ∈ fieldsOf rs i, Plain entry.2 := by
  intro entry hentry
  obtain ⟨a, ha, heq⟩ := List.mem_filterMap.1 hentry
  cases a with
  | field j name value =>
    rw [Assignment.toField] at heq
    split at heq
    · obtain rfl := Option.some.inj heq
      exact (hsound _ ha).2.2
    · cases heq
  | _ => cases heq

theorem allPlain_valuesAt (i : ℕ) : AllPlain (valuesAt (frameDefaults abi) rs i) := by
  have inherited (i : ℕ) : AllPlain (inheritedAt (frameDefaults abi) rs i) := by
    induction i with
    | zero =>
      intro k v hv
      rw [inheritedAt, getElem?_seeded] at hv
      obtain ⟨default, hdefault, rfl⟩ := Option.map_eq_some_iff.1 hv
      rcases hshared : (sharedOf rs)[k]? with _ | w
      · obtain ⟨p, -, -, hp⟩ := Engine.mem_of_tableOf hdefault
        rw [Option.getD_none, ← Option.some.inj hp]
        exact plain_defaultFor p.spec
      · exact allPlain_sharedOf hsound k w hshared
    | succ i ih => exact ih.insertAll (plain_fieldsOf hsound)
  exact (inherited i).insertAll (plain_fieldsOf hsound)

theorem mem_names_of_valuesAt {i : ℕ} {k : Text} (h : k ∈ valuesAt (frameDefaults abi) rs i) :
    k ∈ abi.frameActionParams.map Param.name := by
  by_contra hk
  have hnone := getElem?_inheritedAt_eq_none (fun j name value hmem => (hsound _ hmem).2.1) hk (i + 1)
  rw [Std.ExtTreeMap.mem_iff_isSome_getElem?] at h
  rw [inheritedAt] at hnone
  rw [valuesAt, hnone] at h
  cases h

theorem lt_indexBound_of_cycle {i : ℕ} (ha : a ∈ rs) (hi : a.cycle = some i) : i < indexBound := by
  have := hsound a ha
  cases a with
  | dt j ns =>
    obtain rfl := Option.some.inj hi
    exact this
  | field j name value =>
    obtain rfl := Option.some.inj hi
    exact this.1
  | _ => cases hi

end Sound

/-! ## Accepted testcases -/

section Accepted

variable {u : UnicodeData} {abi : TargetAbi} {text : Text} {T : TestCase} {scanPeriodNs : ℤ}
  {dtRangeNs : Option (ℤ × ℤ)} {f : Frame} {n : ℕ}

theorem missingFrom_eq_nil {others names : List Text} : missingFrom others names = [] ↔ ∀ name ∈ names, name ∈ others := by
  rw [List.eq_nil_iff_forall_not_mem]
  constructor
  · intro h name hname
    by_contra hother
    exact h name (mem_sortedSet.2 (List.mem_filter.2 ⟨hname, decide_eq_true hother⟩))
  · intro h name hname
    obtain ⟨hname, hother⟩ := List.mem_filter.1 (mem_sortedSet.1 hname)
    exact of_decide_eq_true hother (h name hname)

/-- What a validation says of every frame. -/
theorem frame_of_validate (h : validate u T abi = .ok ()) (hf : f ∈ T.frames) :
    (∀ p ∈ abi.frameActionParams, p.name ∈ f.values) ∧ ∀ dt, f.dtNs = some dt → 0 ≤ dt ∧ dt ≤ u64Max := by
  unfold validate at h
  obtain ⟨-, h⟩ := ite_error_eq_ok.1 h
  obtain ⟨-, -, h⟩ := bind_eq_ok.1 h
  have hframe := forM_eq_ok_iff.1 h f hf
  unfold validateFrame at hframe
  obtain ⟨hfields, hframe⟩ := ite_error_eq_ok.1 hframe
  obtain ⟨hdt, -⟩ := ite_error_eq_ok.1 hframe
  rw [not_or, not_not, not_not] at hfields
  constructor
  · intro p hp
    have hmem := missingFrom_eq_nil.1 hfields.1 p.name (List.mem_map_of_mem hp)
    exact Std.ExtTreeMap.mem_of_mem_keys hmem
  · intro dt hsome
    rw [hsome, Option.any_some, decide_eq_true_eq] at hdt
    omega

/-- A check of every value against its parameter covers every parameter. -/
theorem valid_of_forM_values {params : List Param} {values : Values}
    (hname : ∀ p ∈ params, ∀ q ∈ params, p.name = q.name → p = q)
    (h : (values.toList.forM fun ((name, value) : Text × Text) =>
      match params.find? fun param : Param => param.name = name with
      | some param => validateValue u param value
      | none => .ok ()) = .ok ()) :
    ∀ p ∈ params, ∀ v, values[p.name]? = some v → validateValue u p v = .ok () := by
  intro p hp v hv
  have hentry := forM_eq_ok_iff.1 h (p.name, v) (Std.ExtTreeMap.mem_toList_iff_getElem?_eq_some.2 hv)
  have hfind : params.find? (fun param : Param => param.name = p.name) = some p := by
    cases hfound : params.find? (fun param : Param => param.name = p.name) with
    | none => exact absurd (decide_eq_true rfl) (List.find?_eq_none.1 hfound p hp)
    | some q =>
      have heq : q.name = p.name := of_decide_eq_true (List.find?_some hfound :)
      rw [hname q (List.mem_of_find?_eq_some hfound) p hp heq]
  dsimp only at hentry
  rwa [hfind] at hentry

/-- A name stands for one parameter. -/
theorem param_unique {p q : Param} (hp : p ∈ abi.stateFields ++ abi.params)
    (hq : q ∈ abi.stateFields ++ abi.params) (h : p.name = q.name) : p = q :=
  abi.oneName p hp q hq (by rw [h, eqIgnoreAsciiCase_self])

theorem sharedValid_of_validate (hvalid : validate u T abi = .ok ()) :
    ∀ p ∈ abi.sharedParams, ∀ v, T.shared[p.name]? = some v → validateValue u p v = .ok () := by
  obtain ⟨-, hvalid⟩ := ite_error_eq_ok.1 hvalid
  obtain ⟨⟨⟩, hshared, -⟩ := bind_eq_ok.1 hvalid
  exact valid_of_forM_values (fun p hp q hq => param_unique (TargetAbi.mem_of_mem_sharedParams hp)
    (TargetAbi.mem_of_mem_sharedParams hq)) hshared

theorem fieldsValid_of_validate (hvalid : validate u T abi = .ok ()) (hf : f ∈ T.frames) :
    ∀ p ∈ abi.frameActionParams, ∀ v, f.values[p.name]? = some v → validateValue u p v = .ok () := by
  obtain ⟨-, hvalid⟩ := ite_error_eq_ok.1 hvalid
  obtain ⟨⟨⟩, -, hframes⟩ := bind_eq_ok.1 hvalid
  obtain ⟨-, hframe⟩ := ite_error_eq_ok.1 (forM_eq_ok_iff.1 hframes f hf)
  obtain ⟨-, hframe⟩ := ite_error_eq_ok.1 hframe
  exact valid_of_forM_values (fun p hp q hq => param_unique (TargetAbi.mem_of_mem_frameActionParams hp)
    (TargetAbi.mem_of_mem_frameActionParams hq)) hframe

/-- The time steps of accepted frames are in the range of the contract. -/
theorem dtAllowed_of_expandFrames {st : ParseState} {previous : Values} {indices : List ℕ} {frames : List Frame}
    (h : expandFrames abi st scanPeriodNs dtRangeNs previous indices = .ok frames) (hf : f ∈ frames) :
    ∀ range ∈ dtRangeNs, ∃ dt, f.dtNs = some dt ∧ range.1 ≤ dt ∧ dt ≤ range.2 := by
  induction indices generalizing previous frames with
  | nil =>
    obtain rfl := Except.ok.inj h
    cases hf
  | cons index indices ih =>
    rw [expandFrames] at h
    obtain ⟨dt, hdt, h⟩ := bind_eq_ok.1 h
    obtain ⟨rest, hrest, h⟩ := bind_eq_ok.1 h
    obtain rfl := Except.ok.inj h
    rcases List.mem_cons.1 hf with rfl | hf
    · intro range hrange
      obtain ⟨rfl, hallowed⟩ := frameDt_iff.1 hdt
      obtain rfl := Option.mem_def.1 hrange
      refine ⟨_, ?_, hallowed range rfl⟩
      cases st.dtByFrame[index]? <;> rfl
    · exact ih hrest hf

theorem dtAllowed_of_parse (h : parseTestcase u text abi scanPeriodNs dtRangeNs = .ok T)
    (hn : ∃ a ∈ assignments u abi (splitlines text), ∃ i, a.cycle = some i) (hf : f ∈ T.frames) :
    ∀ range ∈ dtRangeNs, ∃ dt, f.dtNs = some dt ∧ range.1 ≤ dt ∧ dt ≤ range.2 := by
  rw [parseTestcase, bind_eq_ok] at h
  obtain ⟨st, hst, h⟩ := h
  obtain ⟨hindices, h⟩ := ite_error_eq_ok.1 h
  obtain ⟨frames, hframes, h⟩ := bind_eq_ok.1 h
  obtain ⟨⟨⟩, -, h⟩ := bind_eq_ok.1 h
  obtain rfl := Except.ok.inj h
  have hne : frames ≠ [] := by
    rintro rfl
    have hstored : Stored (assignments u abi (splitlines text)) st := by
      rw [(parseLines_eq_ok.1 hst).2]
      exact stored_nil.foldl
    obtain ⟨a, ha, i, hi⟩ := hn
    have hlt := (hstored.frameCount (not_not.1 hindices) i).1 ⟨a, ha, hi⟩
    obtain ⟨m, hm⟩ := Nat.exists_eq_succ_of_ne_zero (show st.indices.length ≠ 0 by omega)
    rw [hm, List.range_succ_eq_map, expandFrames] at hframes
    obtain ⟨_, -, hframes⟩ := bind_eq_ok.1 hframes
    obtain ⟨_, -, hframes⟩ := bind_eq_ok.1 hframes
    cases hframes
  simp only [if_neg hne] at hf
  exact dtAllowed_of_expandFrames hframes hf

/-- The records of frames are those that assign to one. -/
theorem hasFrameRecord_iff (hall : AllRead u abi (splitlines text)) :
    HasFrameRecord u text ↔ ∃ a ∈ assignments u abi (splitlines text), ∃ i, a.cycle = some i := by
  refine ⟨fun h => exists_cycle_of_hasFrameRecord h hall, ?_⟩
  rintro ⟨a, ha, i, hi⟩
  obtain ⟨raw, hraw, ha⟩ := List.mem_filterMap.1 ha
  obtain ⟨o, ho⟩ := hall raw hraw
  rw [ho] at ha
  obtain rfl : o = some a := ha
  obtain ⟨name, ty, value, -, hsplit, hcase⟩ := readLine_eq_some ho
  rcases hcase with ⟨-, hshared⟩ | ⟨digits, field, cycle, hcycle, -, -⟩
  · rcases readShared_eq_ok.1 hshared with ⟨-, -, -, rfl⟩ | ⟨-, p, -, -, rfl⟩ <;> cases hi
  · exact ⟨raw, hraw, name, ty, value, digits, field, hsplit, hcycle⟩

/-- The frames of an accepted testcase, by their numbers. -/
theorem frames_of_parsed {rs : List Assignment} (h : Parsed abi scanPeriodNs dtRangeNs rs n T) :
    T.frames.map Frame.index = List.range (if n = 0 then 1 else n) ∧
      ∀ f ∈ T.frames, f.values = valuesAt (frameDefaults abi) rs f.index := by
  have hindex : T.frames.map Frame.index = (T.frames.map Frame.data).map Prod.fst := by
    rw [List.map_map]
    rfl
  have hdata {f : Frame} (hf : f ∈ T.frames) : f.data ∈ T.frames.map Frame.data := List.mem_map_of_mem hf
  rw [h.frames] at hindex
  constructor
  · rw [hindex]
    split
    · rfl
    · rw [List.map_map]
      exact List.map_id _
  · intro f hf
    have hmem := hdata hf
    rw [h.frames] at hmem
    split at hmem
    · obtain ⟨hi, hv, -⟩ : f.index = 0 ∧ f.values = valuesAt (frameDefaults abi) rs 0 ∧ f.dtNs = dtOf rs 0 := by
        simpa [Frame.data, frameAt] using hmem
      rw [hv, hi]
    · obtain ⟨i, -, heq⟩ := List.mem_map.1 hmem
      obtain ⟨hi, hv, -⟩ := Prod.mk.inj heq |>.imp_right Prod.mk.inj
      rw [← hv, ← hi]

/-- **What the parser accepts is legible.** -/
theorem legible_of_parse (h : parseTestcase u text abi scanPeriodNs dtRangeNs = .ok T) : Legible abi true T := by
  obtain ⟨hall, hvalid, n, hparsed⟩ := parseTestcase_eq_ok h
  have hsound : ∀ a ∈ assignments u abi (splitlines text), Sound abi a := fun a ha => sound_of_mem_assignments ha
  obtain ⟨hindex, hvalues⟩ := frames_of_parsed hparsed
  refine ⟨⟨hparsed.fieldOrder, hparsed.types, hparsed.sharedOrder⟩, hparsed.initProfile, ?_, ?_, ?_, ?_, ?_, ?_⟩
  · intro k hk
    rw [hparsed.shared] at hk
    exact mem_names_of_sharedOf hsound hk
  · intro f hf k hk
    rw [hvalues f hf] at hk
    exact mem_names_of_valuesAt hsound hk
  · rw [hparsed.shared]
    exact allPlain_sharedOf hsound
  · intro f hf
    rw [hvalues f hf]
    exact allPlain_valuesAt hsound f.index
  · intro f hf
    have hmem : f.index ∈ T.frames.map Frame.index := List.mem_map_of_mem hf
    rw [hindex, List.mem_range] at hmem
    by_cases hn : n = 0
    · rw [if_pos hn] at hmem
      have : 0 < indexBound := Nat.pow_pos (by decide)
      omega
    · rw [if_neg hn] at hmem
      obtain ⟨a, ha, hi⟩ := (hparsed.count f.index).2 hmem
      exact lt_indexBound_of_cycle hsound ha hi
  · exact fun _ f hf dt hdt => (frame_of_validate hvalid hf).2 dt hdt

/-- A frame of fields has records. -/
theorem counted_of_complete {includeDt : Bool} (hparams : abi.frameActionParams ≠ [])
    (complete : ∀ p ∈ abi.frameActionParams, p.name ∈ f.values) : frameAssignments abi includeDt f ≠ [] := by
  obtain ⟨p, hp⟩ := List.exists_mem_of_ne_nil _ hparams
  obtain ⟨v, hv⟩ := Option.isSome_iff_exists.1 (Std.ExtTreeMap.mem_iff_isSome_getElem?.1 (complete p hp))
  have hmem : Assignment.field f.index p.name v ∈ frameAssignments abi includeDt f :=
    List.mem_append_left _ (List.mem_filterMap.2 ⟨p, hp, by rw [hv]; rfl⟩)
  exact List.ne_nil_of_mem hmem

/-- Without fields, what makes a frame is its time step. -/
theorem dt_of_no_fields {rs : List Assignment} (hsound : ∀ a ∈ rs, Sound abi a)
    (hparsed : Parsed abi scanPeriodNs dtRangeNs rs n T) (hn : n ≠ 0) (hparams : abi.frameActionParams = [])
    (hf : f ∈ T.frames) : ∃ dt, f.dtNs = some dt := by
  have hmem : f.data ∈ T.frames.map Frame.data := List.mem_map_of_mem hf
  rw [hparsed.frames, if_neg hn] at hmem
  obtain ⟨i, hi, heq⟩ := List.mem_map.1 hmem
  obtain ⟨-, -, hdt⟩ := Prod.mk.inj heq |>.imp_right Prod.mk.inj
  obtain ⟨a, ha, hcycle⟩ := (hparsed.count i).2 (List.mem_range.1 hi)
  rw [← hdt]
  cases a with
  | field j name value =>
    have hname := (hsound _ ha).2.1
    rw [hparams] at hname
    cases hname
  | dt j ns =>
    obtain rfl := Option.some.inj hcycle
    rcases hlast : dtOf rs j with _ | dt
    · rw [dtOf, lastValue_eq_none_iff] at hlast
      have hmem : (j, ns) ∈ rs.filterMap Assignment.toDt := List.mem_filterMap.2 ⟨_, ha, rfl⟩
      exact absurd (List.mem_map_of_mem hmem) hlast
    · exact ⟨dt, rfl⟩
  | _ => cases hcycle

/-- **Canonical texts are exact** unless the contract asks for time steps and the text has no frames: the frame that the
parser adds has fields and no time step. -/
theorem canonicalize_exact_iff (h : parseTestcase u text abi scanPeriodNs dtRangeNs = .ok T) :
    (parseTestcase u (T.canonical true) abi scanPeriodNs dtRangeNs = .ok T ∧
        (do canonicalize u (← canonicalize u text abi scanPeriodNs dtRangeNs true) abi scanPeriodNs dtRangeNs true) =
          canonicalize u text abi scanPeriodNs dtRangeNs true) ↔
      (dtRangeNs = none ∨ abi.frameActionParams = [] ∨ HasFrameRecord u text) := by
  obtain ⟨hall, hvalid, n, hparsed⟩ := parseTestcase_eq_ok h
  have hT := legible_of_parse h
  obtain ⟨hindex, -⟩ := frames_of_parsed hparsed
  have hsound : ∀ a ∈ assignments u abi (splitlines text), Sound abi a := fun a ha => sound_of_mem_assignments ha
  have complete {f : Frame} (hf : f ∈ T.frames) := (frame_of_validate hvalid hf).1
  have hrecord : HasFrameRecord u text ↔ n ≠ 0 := by
    rw [hasFrameRecord_iff hall]
    constructor
    · rintro ⟨a, ha, i, hi⟩
      have := (hparsed.count i).1 ⟨a, ha, hi⟩
      omega
    · intro hn
      obtain ⟨a, ha, hi⟩ := (hparsed.count 0).2 (Nat.pos_of_ne_zero hn)
      exact ⟨a, ha, 0, hi⟩
  have hempty (hn : n = 0) : ∃ values, T.frames = [⟨0, values, none⟩] := by
    have hdata := hparsed.frames
    rw [if_pos hn] at hdata
    refine ⟨valuesAt (frameDefaults abi) (assignments u abi (splitlines text)) 0, Frame.data_injective.list_map ?_⟩
    rw [hdata, frameAt, (hn ▸ hparsed.count : FrameCount _ 0).dtOf_eq_none (Nat.le_refl 0)]
    rfl
  constructor
  · rintro ⟨hagain, -⟩
    by_contra hcontra
    rw [not_or, not_or, hrecord, not_not] at hcontra
    obtain ⟨hrange, hparams, hn⟩ := hcontra
    obtain ⟨values, hframes⟩ := hempty hn
    have hf : (⟨0, values, none⟩ : Frame) ∈ T.frames := hframes ▸ List.mem_singleton_self _
    obtain ⟨range, hsome⟩ := Option.ne_none_iff_exists'.1 hrange
    have hassigned : frameAssignments abi true ⟨0, values, none⟩ ≠ [] := counted_of_complete hparams (complete hf)
    obtain ⟨a, ha⟩ := List.exists_mem_of_ne_nil _ hassigned
    -- the printed fields name the frame, and so it needs a time step now
    have hspelled := (assignments_canonical (u := u) hT).2
    have hcycle : ∃ a ∈ assignments u abi (splitlines (T.canonical true)), ∃ i, a.cycle = some i :=
      ⟨a, by rw [hspelled]; exact List.mem_append_right _ (List.mem_flatMap.2 ⟨_, hf, ha⟩), 0, frameAssignments_cycle ha⟩
    obtain ⟨dt, hdt, -⟩ := dtAllowed_of_parse hagain hcycle hf range hsome
    cases hdt
  · intro hcondition
    have hagain : parseTestcase u (T.canonical true) abi scanPeriodNs dtRangeNs = .ok T := by
      by_cases hbare : abi.frameActionParams = [] ∧ n = 0
      · obtain ⟨values, hframes⟩ := hempty hbare.2
        exact parse_canonical_bare hT hbare.1 hframes hvalid
      · apply parse_canonical hT hindex (by split <;> omega) (fun f hf => complete hf) _ (fun f _ => rfl) _ hvalid
        · intro f hf
          by_cases hparams : abi.frameActionParams = []
          · obtain ⟨dt, hdt⟩ := dt_of_no_fields hsound hparsed (fun hn => hbare ⟨hparams, hn⟩) hparams hf
            rw [frameAssignments, hdt]
            simp
          · exact counted_of_complete hparams (complete hf)
        · intro f hf range hsome
          by_cases hn : n = 0
          · rcases hcondition with hnone | hparams | hframe
            · rw [hnone] at hsome
              cases hsome
            · exact absurd ⟨hparams, hn⟩ hbare
            · exact absurd hn (hrecord.1 hframe)
          · exact dtAllowed_of_parse h ((hasFrameRecord_iff hall).1 (hrecord.2 hn)) hf range hsome
    have hcanonical : canonicalize u text abi scanPeriodNs dtRangeNs true = .ok (T.canonical true) := by
      rw [canonicalize, h]
      rfl
    refine ⟨hagain, ?_⟩
    rw [hcanonical]
    exact (show canonicalize u (T.canonical true) abi scanPeriodNs dtRangeNs true = _ by rw [canonicalize, hagain]; rfl)

end Accepted

theorem canonicalize_exact_oneFrame : ∃ T, parseTestcase asciiData oneFrame oneInput 0 none = .ok T ∧
    parseTestcase asciiData (T.canonical true) oneInput 0 none = .ok T := by
  have hok : (parseTestcase asciiData oneFrame oneInput 0 none).toBool = true := by decide +kernel
  cases hT : parseTestcase asciiData oneFrame oneInput 0 none with
  | error e =>
    rw [hT] at hok
    cases hok
  | ok T => exact ⟨T, rfl, ((canonicalize_exact_iff hT).2 (Or.inl rfl)).1⟩

/-- The empty text, where the contract asks for time steps: the second text has one. -/
theorem canonicalize_not_exact : ∃ T, parseTestcase asciiData [] oneInput 10000000 (some (0, 1000000000)) = .ok T ∧
    parseTestcase asciiData (T.canonical true) oneInput 10000000 (some (0, 1000000000)) ≠ .ok T ∧
    (canonicalize asciiData [] oneInput 10000000 (some (0, 1000000000)) true >>= fun first =>
        canonicalize asciiData first oneInput 10000000 (some (0, 1000000000)) true) ≠
      canonicalize asciiData [] oneInput 10000000 (some (0, 1000000000)) true := by
  have hfirst : (canonicalize asciiData [] oneInput 10000000 (some (0, 1000000000)) true).toOption =
      some "0.X,INT,0\n".toList := by decide +kernel
  have hsecond : (canonicalize asciiData "0.X,INT,0\n".toList oneInput 10000000 (some (0, 1000000000)) true).toOption =
      some "0.X,INT,0\n0.__DT,TIME,10000000\n".toList := by decide +kernel
  rw [toOption_eq_some] at hfirst hsecond
  have hne : (Except.ok "0.X,INT,0\n0.__DT,TIME,10000000\n".toList : Except FrameFormatError Text) ≠
      .ok "0.X,INT,0\n".toList := fun h => absurd (Except.ok.inj h) (by decide)
  cases hT : parseTestcase asciiData [] oneInput 10000000 (some (0, 1000000000)) with
  | error e =>
    rw [canonicalize, hT] at hfirst
    cases hfirst
  | ok T =>
    have hcanonical : T.canonical true = "0.X,INT,0\n".toList := by
      rw [canonicalize, hT] at hfirst
      exact Except.ok.inj hfirst
    refine ⟨T, rfl, fun hagain => hne ?_, fun hagain => hne ?_⟩
    · rw [← hsecond, canonicalize, ← hcanonical, hagain]
      rfl
    · rw [← hsecond, ← hfirst, ← hagain, hfirst]
      rfl

end SemantiST.Corpus
