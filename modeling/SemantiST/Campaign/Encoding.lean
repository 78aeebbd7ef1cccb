import SemantiST.Campaign.Minimize
import SemantiST.Corpus.Building

/-!
# The text of shortened frames

The minimizer writes frames of a parsed testcase: some are left out, and some have other values.  Every
frame is complete, so that its text does not depend on the frames that are left out before it.
-/

namespace SemantiST.Campaign

open Lib Corpus

variable {u : UnicodeData} {abi : TargetAbi} {T : TestCase} {f : Frame} {frames : List Frame}
  {previous values : Values} {text : Text}

/-- A frame with a printable value of every field. -/
structure Fits (abi : TargetAbi) (f : Frame) : Prop where
  names : ∀ k, k ∈ f.values ↔ k ∈ abi.frameActionParams.map Param.name
  plain : AllPlain f.values
  dt : ∀ dt, f.dtNs = some dt → 0 ≤ dt ∧ dt ≤ u64Max

/-- The values pass the checks of their parameters. -/
def ValidValues (u : UnicodeData) (params : List Param) (values : Values) : Prop :=
  ∀ p ∈ params, ∀ v, values[p.name]? = some v → validateValue u p v = .ok ()

/-- The frames with the numbers of their places. -/
def renumber (frames : List Frame) : List Frame := frames.mapIdx fun i f => { f with index := i }

theorem mem_renumber :
    f ∈ renumber frames ↔ ∃ i, ∃ g : Frame, frames[i]? = some g ∧ f = { g with index := i } := by
  rw [renumber, List.mem_mapIdx]
  constructor
  · rintro ⟨i, hi, rfl⟩
    exact ⟨i, frames[i], List.getElem?_eq_getElem hi, rfl⟩
  · rintro ⟨i, g, hg, rfl⟩
    obtain ⟨hi, rfl⟩ := List.getElem?_eq_some_iff.1 hg
    exact ⟨i, hi, rfl⟩

theorem index_renumber : (renumber frames).map Frame.index = List.range frames.length := by
  refine List.ext_getElem ?_ fun i hi hi' => ?_
  · rw [renumber, List.length_map, List.length_mapIdx, List.length_range]
  · simp [renumber]

/-! ## What the parser has checked -/

theorem validShared_of_parse (h : parse u abi text = .ok T) : ValidValues u abi.sharedParams T.shared := by
  obtain ⟨-, hvalid, -⟩ := parseTestcase_eq_ok h
  exact sharedValid_of_validate hvalid

theorem validFrame_of_parse (h : parse u abi text = .ok T) (hf : f ∈ T.frames) :
    ValidValues u abi.frameActionParams f.values := by
  obtain ⟨-, hvalid, -⟩ := parseTestcase_eq_ok h
  exact fieldsValid_of_validate hvalid hf

theorem fits_of_parse (h : parse u abi text = .ok T) (hf : f ∈ T.frames) : Fits abi f := by
  have hlegible := legible_of_parse h
  obtain ⟨-, hvalid, -⟩ := parseTestcase_eq_ok h
  obtain ⟨hcomplete, hdt⟩ := frame_of_validate hvalid hf
  refine ⟨fun k => ⟨hlegible.fieldNames f hf k, fun hk => ?_⟩, hlegible.plainFields f hf, hdt⟩
  obtain ⟨p, hp, rfl⟩ := List.mem_map.1 hk
  exact hcomplete p hp

/-- There is always a frame. -/
theorem frames_ne_nil_of_parse (h : parse u abi text = .ok T) : T.frames ≠ [] := by
  obtain ⟨-, -, n, hparsed⟩ := parseTestcase_eq_ok h
  obtain ⟨hindex, -⟩ := frames_of_parsed hparsed
  intro hnil
  have hlength := congrArg List.length hindex
  rw [hnil, List.map_nil, List.length_nil, List.length_range] at hlength
  split at hlength
  · omega
  · omega

/-! ## Complete frames are written as they are -/

theorem fieldOf_name {p : Param} (hp : p ∈ abi.frameActionParams) :
    (abi.frameActionParams.find? fun param => u.upperText param.name = u.upperText p.name) = some p := by
  have hmem : ∀ q ∈ abi.frameActionParams, q ∈ abi.stateFields ++ abi.params :=
    fun q => TargetAbi.mem_of_mem_frameActionParams
  have hupper : ∀ q ∈ abi.frameActionParams, u.upperText q.name = toAsciiUppercase q.name := fun q hq =>
    upperText_ascii (graphic_isIdent (isFieldName_isIdent (abi.fieldName q (hmem q hq)))).ascii
  cases hfound : abi.frameActionParams.find? fun param : Param =>
      u.upperText param.name = u.upperText p.name with
  | none => exact absurd (decide_eq_true rfl) (List.find?_eq_none.1 hfound p hp)
  | some q =>
    have hq := List.mem_of_find?_eq_some hfound
    have hname : u.upperText q.name = u.upperText p.name := of_decide_eq_true (List.find?_some hfound :)
    rw [hupper q hq, hupper p hp] at hname
    rw [abi.oneName q (hmem q hq) p (hmem p hp) (eqIgnoreAsciiCase_iff_upper.2 hname)]

theorem foldlM_eq_insertAll {step : Values → Text × Text → Except FrameFormatError Values}
    {l : List (Text × Text)} (hstep : ∀ item ∈ l, ∀ m, step m item = .ok (m.insert item.1 item.2)) :
    l.foldlM step values = .ok (insertAll values l) := by
  induction l generalizing values with
  | nil => rfl
  | cons item l ih =>
    exact foldlM_cons_eq_ok.2 ⟨_, hstep item List.mem_cons_self values,
      ih fun item' hmem => hstep item' (List.mem_cons_of_mem _ hmem)⟩

theorem mergeValues_eq (hnames : ∀ k ∈ values, k ∈ abi.frameActionParams.map Param.name)
    (hprevious : ∀ k ∈ previous, k ∈ values) : mergeValues u abi previous values = .ok values := by
  refine (foldlM_eq_insertAll fun item hitem m => ?_).trans (congrArg Except.ok ?_)
  · have hvalue := Std.ExtTreeMap.mem_toList_iff_getElem?_eq_some.1 hitem
    obtain ⟨p, hp, hname⟩ := List.mem_map.1
      (hnames item.1 (Std.ExtTreeMap.mem_iff_isSome_getElem?.2 (by rw [hvalue]; rfl)))
    have hfield := fieldOf_name (u := u) hp
    rw [hname] at hfield
    dsimp only
    rw [hfield, ← hname]
  · refine Std.ExtTreeMap.ext_getElem? fun {k} => ?_
    rw [getElem?_insertAll, lastValue_toList]
    cases hk : values[k]? with
    | some v => rfl
    | none =>
      rw [Option.none_or]
      refine Std.ExtTreeMap.getElem?_eq_none fun hmem => ?_
      have hmem := Std.ExtTreeMap.mem_iff_isSome_getElem?.1 (hprevious k hmem)
      rw [hk] at hmem
      cases hmem

theorem buildFrames_eq {dts : List (Option ℤ)} {index : ℕ} (hfits : ∀ f ∈ frames, Fits abi f)
    (hprevious : ∀ k ∈ previous, k ∈ abi.frameActionParams.map Param.name)
    (hdts : ∀ i f, frames[i]? = some f → dts[index + i]? = some f.dtNs) :
    buildFrames u abi dts index previous (frames.map Frame.values) =
      .ok (frames.mapIdx fun i f => { f with index := index + i }) := by
  induction frames generalizing index previous with
  | nil => rfl
  | cons f frames ih =>
    have hf := hfits f List.mem_cons_self
    have hmerged : mergeValues u abi previous f.values = .ok f.values :=
      mergeValues_eq (fun k hk => (hf.names k).1 hk) fun k hk => (hf.names k).2 (hprevious k hk)
    have hdts' : ∀ i g, frames[i]? = some g → dts[index + 1 + i]? = some g.dtNs := fun i g hg => by
      rw [Nat.add_assoc, Nat.add_comm 1 i]
      exact hdts (i + 1) g hg
    have hrest := ih (fun g hg => hfits g (List.mem_cons_of_mem _ hg)) (fun k hk => (hf.names k).1 hk) hdts'
    have hdt : dts[index]? = some f.dtNs := hdts 0 f rfl
    refine bind_eq_ok.2 ⟨f.values, hmerged, bind_eq_ok.2 ⟨_, hrest, congrArg Except.ok ?_⟩⟩
    rw [List.mapIdx_cons, hdt, Option.join_some, Nat.add_zero]
    congr 1
    exact congrArg (List.mapIdx · frames) (funext fun i => funext fun g => by
      rw [Nat.add_assoc, Nat.add_comm 1 i])

/-- The testcase of frames of a parsed one. -/
def reframed (T : TestCase) (frames : List Frame) : TestCase := { T with frames := renumber frames }

def printsDt (frames : List Frame) : Bool := frames.any fun f => f.dtNs.isSome

/-- **Complete frames have a text exactly where their values pass their checks**, and it is the text of
these frames. -/
theorem encode_eq_ok (hshaped : Shaped abi T) (hfits : ∀ f ∈ frames, Fits abi f) :
    encode u abi T frames = .ok text ↔ ValidValues u abi.sharedParams T.shared ∧
      (∀ f ∈ frames, ValidValues u abi.frameActionParams f.values) ∧
      text = (reframed T frames).canonical (printsDt frames) := by
  have hbuilt : buildFrames u abi (frames.map Frame.dtNs) 0 (initialValues abi T.shared)
      (frames.map Frame.values) = .ok (renumber frames) := by
    rw [buildFrames_eq hfits (fun k hk => (mem_initialValues).1 hk) fun i f hf => by
      rw [Nat.zero_add, List.getElem?_map, hf, Option.map_some]]
    simp only [Nat.zero_add]
    rfl
  have htestcase : reframed T frames = {
      initProfile := T.initProfile
      shared := T.shared
      frames := renumber frames
      fieldOrder := abi.frameActionParams.map Param.name
      types := Engine.tableOf (fun spec => some spec.typeToken) (abi.stateFields ++ abi.params)
      sharedOrder := abi.sharedParams.map Param.name } := by
    rw [reframed, hshaped.fieldOrder, hshaped.types, hshaped.sharedOrder]
  have hrenumber : (∀ f ∈ renumber frames, validatePresent u abi.frameActionParams f.values = .ok ()) ↔
      ∀ f ∈ frames, ValidValues u abi.frameActionParams f.values := by
    constructor
    · intro h f hf
      obtain ⟨i, hi⟩ := List.mem_iff_getElem?.1 hf
      exact validatePresent_eq_ok.1 (h { f with index := i } (mem_renumber.2 ⟨i, f, hi, rfl⟩))
    · intro h f hf
      obtain ⟨i, g, hg, rfl⟩ := mem_renumber.1 hf
      exact validatePresent_eq_ok.2 (h g (List.mem_of_getElem? hg))
  rw [encode, buildTestcase, hbuilt, htestcase]
  constructor
  · intro h
    obtain ⟨_, hsame, h⟩ := bind_eq_ok.1 h
    obtain rfl := Except.ok.inj hsame
    obtain ⟨⟨⟩, hshared, h⟩ := bind_eq_ok.1 h
    obtain ⟨⟨⟩, hframes, h⟩ := bind_eq_ok.1 h
    exact ⟨validatePresent_eq_ok.1 hshared, hrenumber.1 (forM_eq_ok_iff.1 hframes),
      (Except.ok.inj h).symm⟩
  · rintro ⟨hshared, hframes, rfl⟩
    exact bind_eq_ok.2 ⟨_, rfl, bind_eq_ok.2 ⟨(), validatePresent_eq_ok.2 hshared, bind_eq_ok.2
      ⟨(), forM_eq_ok_iff.2 (hrenumber.2 hframes), rfl⟩⟩⟩

/-! ## The text is read back -/

theorem Fits.renumbered (hfits : ∀ f ∈ frames, Fits abi f) : ∀ f ∈ renumber frames, Fits abi f := by
  intro f hf
  obtain ⟨i, g, hg, rfl⟩ := mem_renumber.1 hf
  obtain ⟨hnames, hplain, hdt⟩ := hfits g (List.mem_of_getElem? hg)
  exact ⟨hnames, hplain, hdt⟩

/-- Fewer frames of a parsed testcase can be printed. -/
theorem legible_reframed (h : parse u abi text = .ok T) (hfits : ∀ f ∈ frames, Fits abi f)
    (hlength : frames.length ≤ T.frames.length) (includeDt : Bool) :
    Legible abi includeDt (reframed T frames) := by
  have hlegible := legible_of_parse h
  have hfits := Fits.renumbered hfits
  refine ⟨⟨hlegible.shaped.fieldOrder, hlegible.shaped.types, hlegible.shaped.sharedOrder⟩,
    hlegible.initProfile, hlegible.sharedNames, fun f hf k hk => ((hfits f hf).names k).1 hk,
    hlegible.plainShared, fun f hf => (hfits f hf).plain, ?_, fun _ f hf => (hfits f hf).dt⟩
  intro f hf
  obtain ⟨i, g, hg, rfl⟩ := mem_renumber.1 hf
  obtain ⟨hi, -⟩ := List.getElem?_eq_some_iff.1 hg
  obtain ⟨-, -, n, hparsed⟩ := parseTestcase_eq_ok h
  obtain ⟨hindex, -⟩ := frames_of_parsed hparsed
  have hi' : i < T.frames.length := by omega
  have hplace : (T.frames[i]).index = i := by
    have hget := congrArg (fun l => l[i]?) hindex
    rw [List.getElem?_map, List.getElem?_eq_getElem hi', Option.map_some] at hget
    obtain ⟨hlt, hget⟩ := List.getElem?_eq_some_iff.1 hget.symm
    rw [List.getElem_range] at hget
    exact hget.symm
  have hshort := hlegible.short _ (List.getElem_mem hi')
  rwa [hplace] at hshort

/-- **The text of frames of a parsed testcase is parsed to these frames.** -/
theorem parse_encode (h : parse u abi text = .ok T) (hfits : ∀ f ∈ frames, Fits abi f)
    (hne : frames ≠ []) (hlength : frames.length ≤ T.frames.length)
    (hdt : ∀ f ∈ frames, ∃ g ∈ T.frames, g.dtNs = f.dtNs) {text' : Text}
    (hencode : encode u abi T frames = .ok text') : parse u abi text' = .ok (reframed T frames) := by
  have hlegible := legible_of_parse h
  obtain ⟨hall, -, n, hparsed⟩ := parseTestcase_eq_ok h
  have hsound : ∀ a ∈ assignments u abi (splitlines text), Corpus.Sound abi a :=
    fun a ha => sound_of_mem_assignments ha
  obtain ⟨hshared, hvalues, rfl⟩ := (encode_eq_ok hlegible.shaped hfits).1 hencode
  have hframes : ∀ f ∈ renumber frames, Fits abi f ∧ ValidValues u abi.frameActionParams f.values := by
    intro f hf
    refine ⟨Fits.renumbered hfits f hf, ?_⟩
    obtain ⟨i, g, hg, rfl⟩ := mem_renumber.1 hf
    exact hvalues g (List.mem_of_getElem? hg)
  have hvalid : validate u (reframed T frames) abi = .ok () :=
    validate_eq_ok hlegible.sharedNames hshared fun f hf => validateFrame_eq_ok
      (hframes f hf).1.names (hframes f hf).1.dt (hframes f hf).2
  have hprinted := legible_reframed h hfits hlength (printsDt frames)
  have hindex : (reframed T frames).frames.map Frame.index = List.range frames.length := index_renumber
  have complete : ∀ f ∈ renumber frames, ∀ p ∈ abi.frameActionParams, p.name ∈ f.values :=
    fun f hf p hp => ((hframes f hf).1.names p.name).2 (List.mem_map_of_mem hp)
  have hdtOf : ∀ f ∈ renumber frames, ∃ g ∈ frames, g.dtNs = f.dtNs := by
    intro f hf
    obtain ⟨i, g, hg, rfl⟩ := mem_renumber.1 hf
    exact ⟨g, List.mem_of_getElem? hg, rfl⟩
  by_cases hbare : abi.frameActionParams = [] ∧ n = 0
  · obtain ⟨hparams, rfl⟩ := hbare
    obtain ⟨g, hg⟩ : ∃ g, T.frames.map Frame.data = [g] ∧ g.2.2 = none := by
      have hdata := hparsed.frames
      rw [if_pos rfl] at hdata
      exact ⟨_, hdata, hparsed.count.dtOf_eq_none (Nat.le_refl 0)⟩
    obtain ⟨f, rfl⟩ : ∃ f, frames = [f] := by
      have hone : T.frames.length = 1 := by
        have := congrArg List.length hg.1
        rwa [List.length_map, List.length_singleton] at this
      refine List.length_eq_one_iff.1 (Nat.le_antisymm (hone ▸ hlength) ?_)
      exact List.length_pos_iff_ne_nil.2 hne
    have hnone : f.dtNs = none := by
      obtain ⟨g', hg', hsame⟩ := hdt f (List.mem_singleton_self f)
      have hmem : g'.data ∈ T.frames.map Frame.data := List.mem_map_of_mem hg'
      rw [hg.1, List.mem_singleton] at hmem
      rw [← hsame, ← hg.2, ← hmem]
      rfl
    have hbare : (reframed T [f]).frames = [⟨0, f.values, none⟩] := by
      rw [← hnone]
      rfl
    exact parse_canonical_bare hprinted hparams hbare hvalid
  · refine parse_canonical hprinted hindex (fun hzero => hne (List.length_eq_zero_iff.1 hzero)) complete
      ?_ ?_ (fun f _ range hrange => by cases hrange) hvalid
    · intro f hf
      by_cases hparams : abi.frameActionParams = []
      · obtain ⟨g, hg, hsame⟩ := hdtOf f hf
        obtain ⟨g', hg', hsame'⟩ := hdt g hg
        obtain ⟨dt, hsome⟩ := dt_of_no_fields hsound hparsed (fun hn => hbare ⟨hparams, hn⟩) hparams hg'
        have hincluded : printsDt frames = true := by
          refine List.any_eq_true.2 ⟨g, hg, ?_⟩
          rw [← hsame', hsome]
          rfl
        rw [frameAssignments, hincluded, if_pos rfl, ← hsame, ← hsame', hsome]
        simp
      · exact counted_of_complete hparams (complete f hf)
    · intro f hf
      split
      · rfl
      · rename_i hnone
        obtain ⟨g, hg, hsame⟩ := hdtOf f hf
        rw [← hsame]
        cases hsome : g.dtNs with
        | none => rfl
        | some dt => exact absurd (List.any_eq_true.2 ⟨g, hg, by rw [hsome]; rfl⟩) hnone

end SemantiST.Campaign
